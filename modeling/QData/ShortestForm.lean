import QData.AcceptedBytes
/-! Encodings compared: the writer's is the shortest of an object's and the only one of its
length, and none is the beginning of another. -/
set_option autoImplicit false

namespace QData
open Words Requests Languages

/-! Headers: the writer takes the first width that a length fits into. -/

def wideHeader (n : Nat) : List (UInt8 × Nat) → Bytes
  | [] => []
  | [(h,w)] => h :: toBytes w n
  | (h,w) :: next :: rest =>
      if n < 256 ^ w then h :: toBytes w n else wideHeader n (next :: rest)

theorem wideHeader_shortest {n : Nat} {wide : List (UInt8 × Nat)}
    (hs : wide.Pairwise fun x y => x.2 < y.2) {h : UInt8} {w : Nat} (hm : (h,w) ∈ wide)
    (fits : n < 256 ^ w) : Shortest (wideHeader n wide) (h :: toBytes w n) := by
  fun_induction wideHeader n wide with
  | case1 => cases hm
  | case2 h' w' =>
    cases List.mem_singleton.mp hm
    exact .refl _
  | case3 h' w' next rest hfits =>
    rcases List.mem_cons.mp hm with he | hm
    · cases he
      exact .refl _
    · have hlt : w' < w := (List.pairwise_cons.mp hs).1 _ hm
      refine .inr ?_
      simp only [List.length_cons,length_toBytes]
      omega
  | case4 h' w' next rest hfits ih =>
    rcases List.mem_cons.mp hm with he | hm
    · cases he
      exact absurd fits hfits
    · exact ih (List.pairwise_cons.mp hs).2 hm

/-- The widths of a type's headers in the tables of the decoder, narrowest first. -/
def ListedAs (type : Qstype) (narrow : List UInt8) (wide : List (UInt8 × Nat)) : Prop :=
  type ≠ .nil ∧ wide.Pairwise (fun x y => x.2 < y.2) ∧ (∀ x ∈ wide, 0 < x.2) ∧
    (∀ x ∈ narrowHeaders, x.2 = type → x.1 ∈ narrow) ∧
    ∀ x ∈ wideHeaders, x.2.1 = type → (x.1,x.2.2) ∈ wide

instance (type : Qstype) (narrow : List UInt8) (wide : List (UInt8 × Nat)) :
    Decidable (ListedAs type narrow wide) :=
  inferInstanceAs (Decidable (_ ∧ _))

theorem ListedAs.narrow_shortest {type : Qstype} {h5 : UInt8} {wide : List (UInt8 × Nat)}
    (hl : ListedAs type [h5] wide) {n : Nat} {bs : Bytes} (h : TypeHeader type n bs) :
    Shortest (if n < max5BitLength then [h5 ||| UInt8.ofNat n] else wideHeader n wide) bs := by
  obtain ⟨ht,hs,hpos,hnarrow,hwide⟩ := hl
  cases h with
  | nil => exact absurd rfl ht
  | narrow listed fits =>
    rw [if_pos fits,← List.mem_singleton.mp (hnarrow _ listed rfl)]
    exact .refl _
  | wide listed fits =>
    have hm := hwide _ listed rfl
    split
    · have hw := hpos _ hm
      refine .inr ?_
      simp only [List.length_cons,length_toBytes,List.length_nil] at hw ⊢
      omega
    · exact wideHeader_shortest hs hm fits

theorem ListedAs.wide_shortest {type : Qstype} {wide : List (UInt8 × Nat)}
    (hl : ListedAs type [] wide) {n : Nat} {bs : Bytes} (h : TypeHeader type n bs) :
    Shortest (wideHeader n wide) bs := by
  obtain ⟨ht,hs,_,hnarrow,hwide⟩ := hl
  cases h with
  | nil => exact absurd rfl ht
  | narrow listed => cases hnarrow _ listed rfl
  | wide listed fits => exact wideHeader_shortest hs (hwide _ listed rfl) fits

theorem writeLengthHeader32_bytes (h32 h64 : UInt8) (n : Nat) (c : Bool) :
    Emits (writeLengthHeader32 h32 h64 n c) (wideHeader n [(h32,4),(h64,8)]) := by
  have hemits := fun (h : UInt8) (w : Nat) =>
    (emits_pushPodIf [h] c).append (emits_pushPodContiguous (toBytes w n))
  have hsame : n < max32BitLength ↔ n < 256 ^ 4 := Iff.rfl
  rw [writeLengthHeader32,wideHeader,wideHeader]
  by_cases h : n < max32BitLength
  · rw [if_pos h,if_pos (hsame.mp h)]
    exact hemits h32 4
  · rw [if_neg h,if_neg (mt hsame.mpr h)]
    exact hemits h64 8

theorem writeLengthHeader5_bytes (h5 h8 h16 h32 h64 : UInt8) (n : Nat) (c : Bool) :
    Emits (writeLengthHeader5 h5 h8 h16 h32 h64 n c)
      (if n < max5BitLength then [h5 ||| UInt8.ofNat n]
        else wideHeader n [(h8,1),(h16,2),(h32,4),(h64,8)]) := by
  have hemits := fun (h : UInt8) (w : Nat) =>
    (emits_pushPodIf [h] c).append (emits_pushPodContiguous (toBytes w n))
  have h8' : n < max8BitLength ↔ n < 256 ^ 1 := Iff.rfl
  have h16' : n < max16BitLength ↔ n < 256 ^ 2 := Iff.rfl
  rw [writeLengthHeader5]
  by_cases h₅ : n < max5BitLength
  · rw [if_pos h₅,if_pos h₅]
    exact emits_pushPodIf _ c
  rw [if_neg h₅,if_neg h₅,wideHeader]
  by_cases h₈ : n < max8BitLength
  · rw [if_pos h₈,if_pos (h8'.mp h₈)]
    exact hemits h8 1
  rw [if_neg h₈,if_neg (mt h8'.mpr h₈),wideHeader]
  by_cases h₁₆ : n < max16BitLength
  · rw [if_pos h₁₆,if_pos (h16'.mp h₁₆)]
    exact hemits h16 2
  rw [if_neg h₁₆,if_neg (mt h16'.mpr h₁₆)]
  exact writeLengthHeader32_bytes h32 h64 n c

theorem writeAttrHeader_bytes (k : Nat) :
    Emits (writeAttrHeader k) (if k < max5BitLength then [attributeHeader5 ||| UInt8.ofNat k]
      else wideHeader k [(attributeHeader8,1),(attributeHeader32,4)]) := by
  have hemits := fun (h : UInt8) (w : Nat) =>
    (emits_pushPod [h]).append (emits_pushPodContiguous (toBytes w k))
  have h8' : k < max8BitLength ↔ k < 256 ^ 1 := Iff.rfl
  rw [writeAttrHeader]
  by_cases h₅ : k < max5BitLength
  · rw [if_pos h₅,if_pos h₅]
    exact emits_pushPod _
  rw [if_neg h₅,if_neg h₅,wideHeader,wideHeader]
  by_cases h₈ : k < max8BitLength
  · rw [if_pos h₈,if_pos (h8'.mp h₈)]
    exact hemits _ 1
  · rw [if_neg h₈,if_neg (mt h8'.mpr h₈)]
    exact hemits _ 4

/-- A stretch of writing that completes and pushes the shortest of some words. -/
def WritesShortest (r : WriteRun) (E : Bytes → Prop) : Prop :=
  ∃ c, Emits r c ∧ ∀ bs, E bs → Shortest c bs

theorem writeAttrHeader_shortest (k : Nat) :
    WritesShortest (writeAttrHeader k) (TypeHeader .attribute k) := by
  have hl : ListedAs .attribute ([attributeHeader5])
      [(attributeHeader8,1),(attributeHeader32,4)] := by decide
  exact ⟨_,writeAttrHeader_bytes k,fun bs h => hl.narrow_shortest h⟩

theorem TypeHeader.ne_nil {type : Qstype} {n : Nat} {bs : Bytes} (h : TypeHeader type n bs) :
    bs ≠ [] := by
  cases h <;> simp

theorem writeHeader_shortest {body : Bool → WriteRun} {type : Qstype} {n : Nat}
    (hb : ∀ c, WritesShortest (body c) (TypeHeader type n)) (k : Nat) :
    WritesShortest (writeHeader body k) (ObjectHeader type n k) := by
  rw [writeHeader]
  by_cases hk : k > 0
  · obtain ⟨as,hae,has⟩ := writeAttrHeader_shortest k
    obtain ⟨bs,hbe,hbs⟩ := hb true
    rw [if_pos hk]
    refine ⟨as ++ bs,hae.append hbe,fun w hw => ?_⟩
    cases hw with
    | plain => exact absurd hk (Nat.lt_irrefl 0)
    | counted count header => exact (has _ count).append (hbs _ header)
  · obtain ⟨bs,hbe,hbs⟩ := hb false
    rw [if_neg hk]
    refine ⟨bs,hbe,fun w hw => ?_⟩
    cases hw with
    | plain header => exact hbs _ header
    | counted count header =>
      have hle := (hbs _ header).length_le
      have hpos := List.length_pos_iff.mpr count.ne_nil
      refine .inr ?_
      rw [List.length_append]
      omega

theorem beginVector_shortest {what : String} {header : Nat → Nat → WriteRun} {type : Qstype}
    {size attrCount : Nat} (hs : size ≤ maxRCompatibleVectorLength)
    (ha : attrCount ≤ maxRCompatibleAttrCount)
    (hh : WritesShortest (header size attrCount) (ObjectHeader type size attrCount)) :
    WritesShortest (beginVector what header size attrCount) (ObjectHeader type size attrCount) := by
  obtain ⟨c,he,hc⟩ := hh
  refine ⟨c,?_,hc⟩
  rw [beginVector,checkedObjectLength,if_neg (by omega),checkedAttrCount,if_neg (by omega)]
  exact emits_nothing.append (emits_nothing.append he)

theorem logicalListed : ListedAs .logical [logicalHeader5]
    [(logicalHeader8,1),(logicalHeader16,2),(logicalHeader32,4),(logicalHeader64,8)] := by decide

theorem integerListed : ListedAs .integer [integerHeader5]
    [(integerHeader8,1),(integerHeader16,2),(integerHeader32,4),(integerHeader64,8)] := by decide

theorem numericListed : ListedAs .real [numericHeader5]
    [(numericHeader8,1),(numericHeader16,2),(numericHeader32,4),(numericHeader64,8)] := by decide

theorem characterListed : ListedAs .character [characterHeader5]
    [(characterHeader8,1),(characterHeader16,2),(characterHeader32,4),(characterHeader64,8)] := by decide

theorem listListed : ListedAs .list [listHeader5]
    [(listHeader8,1),(listHeader16,2),(listHeader32,4),(listHeader64,8)] := by decide

theorem complexListed : ListedAs .complex [] [(complexHeader32,4),(complexHeader64,8)] := by decide

theorem rawListed : ListedAs .raw [] [(rawHeader32,4),(rawHeader64,8)] := by decide

section
variable {type : Qstype} {what : String} {size attrCount : Nat}
  (hs : size ≤ maxRCompatibleVectorLength) (ha : attrCount ≤ maxRCompatibleAttrCount)
include hs ha

theorem ListedAs.five_shortest {h5 h8 h16 h32 h64 : UInt8}
    (hl : ListedAs type [h5] [(h8,1),(h16,2),(h32,4),(h64,8)]) :
    WritesShortest (beginVector what (fun l a =>
        writeHeader (writeLengthHeader5 h5 h8 h16 h32 h64 l) a) size attrCount)
      (ObjectHeader type size attrCount) :=
  beginVector_shortest hs ha (writeHeader_shortest
    (fun c => ⟨_,writeLengthHeader5_bytes _ _ _ _ _ _ c,fun _ h => hl.narrow_shortest h⟩) _)

theorem ListedAs.two_shortest {h32 h64 : UInt8} (hl : ListedAs type [] [(h32,4),(h64,8)]) :
    WritesShortest (beginVector what (fun l a =>
        writeHeader (writeLengthHeader32 h32 h64 l) a) size attrCount)
      (ObjectHeader type size attrCount) :=
  beginVector_shortest hs ha (writeHeader_shortest
    (fun c => ⟨_,writeLengthHeader32_bytes _ _ _ c,fun _ h => hl.wide_shortest h⟩) _)

theorem beginListVector_shortest :
    WritesShortest (beginListVector size attrCount) (ObjectHeader .list size attrCount) :=
  listListed.five_shortest hs ha

end

theorem beginLeafVector_shortest {leaf : Leaf} {attrCount : Nat}
    (hs : leaf.size ≤ maxRCompatibleVectorLength) (ha : attrCount ≤ maxRCompatibleAttrCount) :
    WritesShortest (beginLeafVector leaf attrCount) (ObjectHeader leaf.type leaf.size attrCount) := by
  cases leaf with
  | logical xs => exact logicalListed.five_shortest hs ha
  | integer xs => exact integerListed.five_shortest hs ha
  | real xs => exact numericListed.five_shortest hs ha
  | complex xs => exact complexListed.two_shortest hs ha
  | string xs => exact characterListed.five_shortest hs ha
  | raw xs => exact rawListed.two_shortest hs ha

/-! Names and strings. -/

theorem stringHeader_shortest {n : Nat} {bs : Bytes} (h : HeaderEncodes n bs) :
    Shortest (pushedBytes (writeStringHeader n).pushed) bs := by
  have hemits := fun (h : UInt8) (w : Nat) =>
    ((emits_pushPod [h]).append (emits_pushPodContiguous (toBytes w n))).2.1
  rw [writeStringHeader]
  by_cases h₈ : n < maxString8BitLength
  · rw [if_pos h₈,(emits_pushPod _).2.1]
    rcases h with ⟨_,rfl⟩ | ⟨_,rfl⟩ | ⟨_,rfl⟩
    · exact .refl _
    · exact .inr (by simp)
    · exact .inr (by simp)
  rw [if_neg h₈]
  by_cases h₁₆ : n < maxString16BitLength
  · rw [if_pos h₁₆,hemits]
    rcases h with ⟨h,_⟩ | ⟨_,rfl⟩ | ⟨_,rfl⟩
    · exact absurd h h₈
    · exact .refl _
    · exact .inr (by simp)
  · rw [if_neg h₁₆,hemits]
    rcases h with ⟨h,_⟩ | ⟨h,_⟩ | ⟨_,rfl⟩
    · exact absurd h h₈
    · exact absurd h h₁₆
    · exact .refl _

theorem writeText_bytes {x : Bytes} (h : x.length ≤ maxRCompatibleStringLength) :
    Emits (writeText x) (pushedBytes (writeStringHeader x.length).pushed ++ x) := by
  have hlt : x.length < 2 ^ 32 := by
    simp only [maxRCompatibleStringLength] at h
    omega
  obtain ⟨bs,he,_⟩ := writeStringHeader_reads hlt
  rw [writeText,checkedStringLength,if_neg (by omega),WriteRun.empty_append,he.2.1]
  by_cases hz : x.length > 0
  · rw [if_pos hz]
    exact he.append (emits_pushData x)
  · have hnil : x = [] := List.eq_nil_of_length_eq_zero (by omega)
    subst hnil
    rw [if_neg hz]
    exact he.append emits_nothing

theorem text_shortest {x bs : Bytes} (h : TextEncodes x bs) :
    (writeText x).error = none ∧ Shortest (pushedBytes (writeText x).pushed) bs := by
  obtain ⟨encodes,fits⟩ := h
  have he := writeText_bytes fits
  exact ⟨he.1,he.2.1 ▸ (stringHeader_shortest encodes).append (.refl x)⟩

theorem record_shortest {r : Option Bytes} {bs : Bytes} (h : RecordEncodes r bs) :
    (writeStringValue r).error = none ∧ Shortest (pushedBytes (writeStringValue r).pushed) bs := by
  cases h with
  | na => exact ⟨rfl,.refl _⟩
  | disguised => exact ⟨rfl,.inr (by decide)⟩
  | text encodes => exact text_shortest encodes

theorem writeEach_shortest {α : Type} {write : α → WriteRun} {E : α → Bytes → Prop} {xs : List α}
    {bs : Bytes} (h : Each E xs bs) (hw : ∀ x ∈ xs, ∀ w, E x w → (write x).error = none ∧
      Shortest (pushedBytes (write x).pushed) w) :
    (writeEach write xs).error = none ∧
      Shortest (pushedBytes (writeEach write xs).pushed) bs := by
  induction h with
  | nil => exact ⟨rfl,.refl _⟩
  | cons first _ ih =>
    obtain ⟨he,hs⟩ := hw _ List.mem_cons_self _ first
    obtain ⟨he',hs'⟩ := ih fun x hx => hw x (List.mem_cons_of_mem _ hx)
    refine ⟨WriteRun.error_append_eq_none.mpr ⟨he,he'⟩,?_⟩
    rw [writeEach,pushedBytes_append_ok he]
    exact hs.append hs'

theorem emitPayload_shortest {d : Deferred} {bs : Bytes} (h : LeafEncodes d.leaf bs) :
    (emitPayload d).error = none ∧ Shortest (pushedBytes (emitPayload d).pushed) bs := by
  obtain ⟨access,leaf⟩ := d
  cases h with
  | string encodes => exact writeEach_shortest encodes fun r _ w hr => record_shortest hr
  | array array =>
    have he := @emitPayload_array ⟨access,leaf⟩ array
    exact ⟨he.1,he.2.1 ▸ .refl _⟩

theorem flushPayloadGroup_shortest {ds : List Deferred} {bs : Bytes}
    (h : Each LeafEncodes (ds.map Deferred.leaf) bs) :
    (flushPayloadGroup ds).error = none ∧
      Shortest (pushedBytes (flushPayloadGroup ds).pushed) bs := by
  induction ds generalizing bs with
  | nil =>
    cases h
    exact ⟨rfl,.refl _⟩
  | cons d ds ih =>
    rw [List.map_cons] at h
    cases h with
    | cons first rest =>
      obtain ⟨he,hs⟩ := emitPayload_shortest first
      obtain ⟨he',hs'⟩ := ih rest
      refine ⟨WriteRun.error_append_eq_none.mpr ⟨he,he'⟩,?_⟩
      rw [flushPayloadGroup,writeEach,pushedBytes_append_ok he]
      exact hs.append hs'

/-! Whole objects. -/

mutual
/-- The header pass writes the shortest headers there are for an object. -/
theorem HeadersEncode.shortest : {d : Nat} → {o : Object} → {bs : Bytes} →
    HeadersEncode d o bs → (budget : Nat) → (writeObject budget o.toValue).error = none →
    Shortest (pushedBytes (writeObject budget o.toValue).pushed) bs
  | _, _, _, .nil header, budget, h => by
      simp only [Object.toValue,writeObject] at h ⊢
      rw [(enterObjectScope_append h).2,(emits_pushPod _).2.1]
      cases header with
      | plain header =>
        cases header with
        | nil => exact .refl _
        | narrow listed => exact absurd rfl (narrowHeaders_object listed).1
        | wide listed => exact absurd rfl (wideHeaders_object listed).1
      | counted count header =>
        have hpos := List.length_pos_iff.mpr count.ne_nil
        have hpos' := List.length_pos_iff.mpr header.ne_nil
        refine .inr ?_
        rw [List.length_append,List.length_singleton]
        omega
  | _, _, _, @HeadersEncode.vector d leaf attrs bs as header size count named, budget, h => by
      obtain ⟨hbegin,hattrs,hw⟩ := writeObject_vector_ok h
      have ih := named.shortest (budget-1) hattrs
      obtain ⟨c,he,hc⟩ := beginLeafVector_shortest size count
      rw [Object.toValue,hw,pushedBytes_append_ok hbegin,pushedBytes_append_ok hattrs,
        deferPayload_pushed,pushedBytes_nil,List.append_nil,length_attrsToValues,he.2.1]
      exact (hc _ header).append ih
  | _, _, _, @HeadersEncode.list d values attrs bs as vs header size count named elements,
      budget, h => by
      obtain ⟨hbegin,hattrs,hvalues,hw⟩ := writeObject_list_ok h
      have iha := named.shortest (budget-1) hattrs
      have ihv := elements.shortest (budget-1) hvalues
      obtain ⟨c,he,hc⟩ := beginListVector_shortest size count
      rw [Object.toValue,hw,pushedBytes_append_ok hbegin,pushedBytes_append_ok hattrs,
        length_attrsToValues,length_objectsToValues,he.2.1,List.append_assoc]
      exact (hc _ header).append (iha.append ihv)

theorem AttributesEncode.shortest : {d : Nat} → {attrs : List (Bytes × Object)} → {bs : Bytes} →
    AttributesEncode d attrs bs → (budget : Nat) →
    (writeAttributes budget (attrsToValues attrs)).error = none →
    Shortest (pushedBytes (writeAttributes budget (attrsToValues attrs)).pushed) bs
  | _, _, _, .nil, _, _ => .refl _
  | _, _, _, @AttributesEncode.cons d name x more ns xs rs named value others, budget, h => by
      simp only [attrsToValues,writeAttributes] at h ⊢
      obtain ⟨hname,htail⟩ := WriteRun.error_append_eq_none.mp h
      obtain ⟨hx,hrest⟩ := WriteRun.error_append_eq_none.mp htail
      have ihx := value.shortest budget hx
      have ih := others.shortest budget hrest
      rw [pushedBytes_append_ok hname,pushedBytes_append_ok hx,List.append_assoc]
      exact (text_shortest named).2.append (ihx.append ih)

theorem ValuesEncode.shortest : {d : Nat} → {values : List Object} → {bs : Bytes} →
    ValuesEncode d values bs → (budget : Nat) →
    (writeValues budget (objectsToValues values)).error = none →
    Shortest (pushedBytes (writeValues budget (objectsToValues values)).pushed) bs
  | _, _, _, .nil, _, _ => .refl _
  | _, _, _, @ValuesEncode.cons d x more xs rs value others, budget, h => by
      simp only [objectsToValues,writeValues] at h ⊢
      obtain ⟨hx,hrest⟩ := WriteRun.error_append_eq_none.mp h
      have ihx := value.shortest budget hx
      have ih := others.shortest budget hrest
      rw [pushedBytes_append_ok hx]
      exact ihx.append ih
end

theorem Encodes.shortest {d budget : Nat} {o : Object} {bs : Bytes} (h : Encodes d o bs)
    (hok : (streamWrite budget o.toValue).error = none) :
    Shortest (pushedBytes (streamWrite budget o.toValue).pushed) bs := by
  obtain ⟨headed,string,complex,real,integer,raw⟩ := h
  rw [streamWrite] at hok ⊢
  obtain ⟨_,hb⟩ := checkedMaxNestingDepth_append hok
  rw [hb] at hok ⊢
  obtain ⟨hobj,_⟩ := WriteRun.error_append_eq_none.mp hok
  have hq := fun g => deferred_payloads g o budget hobj
  rw [← hq] at string complex real integer raw
  obtain ⟨e₁,s₁⟩ := flushPayloadGroup_shortest string
  obtain ⟨e₂,s₂⟩ := flushPayloadGroup_shortest complex
  obtain ⟨e₃,s₃⟩ := flushPayloadGroup_shortest real
  obtain ⟨e₄,s₄⟩ := flushPayloadGroup_shortest integer
  obtain ⟨_,s₅⟩ := flushPayloadGroup_shortest raw
  simp only [Payloads.queue] at e₁ e₂ e₃ e₄ s₁ s₂ s₃ s₄ s₅
  rw [pushedBytes_append_ok hobj,flushPayloads,pushedBytes_append_ok e₁,pushedBytes_append_ok e₂,
    pushedBytes_append_ok e₃,pushedBytes_append_ok e₄]
  exact (headed.shortest budget hobj).append (s₁.append (s₂.append (s₃.append (s₄.append s₅))))

/-- Whatever bytes an object was read from, writing it again takes no more of them, and as many
only where they are the writer's own. -/
theorem written_shortest {d : Nat} {o : Object} {b rest : Bytes}
    (h : (streamRead d).run channel b = .ok (o,rest)) :
    (streamWrite d o.toValue).error = none ∧
      Encodes d o (pushedBytes (streamWrite d o.toValue).pushed) ∧
      (pushedBytes (streamWrite d o.toValue).pushed).length+rest.length ≤ b.length ∧
      (b.length = (pushedBytes (streamWrite d o.toValue).pushed).length+rest.length →
        b = pushedBytes (streamWrite d o.toValue).pushed ++ rest) := by
  obtain ⟨hl,hd⟩ := run_ensures channel_exact (streamRead_limits d).ensures h
  have hpos : 0 < o.depth := Value.depth_pos _ hl
  have hok : (streamWrite d o.toValue).error = none := streamWrite_error.mpr ⟨by omega,hl,hd⟩
  have hagain := @streamRead_written o.toValue d d hok (by omega) []
  have hdepth : o.toValue.depth ≤ d := hd
  rw [toObject_toValue,if_pos hdepth] at hagain
  obtain ⟨w,hw,hencodes⟩ := streamRead_takes hagain
  rw [List.append_nil,List.append_nil] at hw
  obtain ⟨bs,rfl,hbs⟩ := streamRead_takes h
  have hs := hbs.shortest hok
  have hle := hs.length_le
  refine ⟨hok,hw ▸ hencodes,?_,fun heq => ?_⟩
  · rw [List.length_append]
    omega
  · rw [List.length_append] at heq
    rw [hs.eq (by omega)]

/-- No attributes, announced all the same, and a list header wider than one nil needs: four
bytes where two are enough. -/
theorem written_shortest_wide :
    (streamRead 2).run channel [0xE0,0x01,0x01,0x00,0xAA] = .ok (.list [.nil] [],[0xAA]) ∧
    (pushedBytes (streamWrite 2 (Object.list [.nil] []).toValue).pushed).length+1 ≤ 5 := by
  have hread : (streamRead 2).run channel [0xE0,0x01,0x01,0x00,0xAA] =
      .ok (.list [.nil] [],[0xAA]) := rfl
  exact ⟨hread,(written_shortest hread).2.2.1⟩

/-- Encodings delimit themselves: with anything behind it an encoding is not one any more, of
this object or of another, at whatever depth limits. -/
theorem encodings_prefix_free {d d' : Nat} {o o' : Object} {bs tail : Bytes}
    (h : Encodes d o bs) (h' : Encodes d' o' (bs ++ tail)) : o' = o ∧ tail = [] := by
  have hread := h.reads tail
  have hread' := h'.reads []
  rw [List.append_nil] at hread'
  have hd : d' ≠ 0 := by
    rintro rfl
    cases hread'
  have hlimit := streamRead_limit hread hd
  rw [hread'] at hlimit
  split at hlimit
  · cases hlimit
    exact ⟨rfl,rfl⟩
  · cases hlimit

/-- A list of one nil, read with two limits. -/
theorem encodings_prefix_free_list : ∃ bs, Encodes 2 (.list [.nil] []) bs ∧
    ∀ d o tail, Encodes d o (bs ++ tail) → o = .list [.nil] [] ∧ tail = [] := by
  have hread : (streamRead 2).run channel [0x21,0x00] = .ok (.list [.nil] [],[]) := rfl
  obtain ⟨bs,_,hbs⟩ := streamRead_takes hread
  exact ⟨bs,hbs,fun d o tail h => encodings_prefix_free hbs h⟩

end QData
