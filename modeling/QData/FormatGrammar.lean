import QData.ObjectCodec
import QData.StringRecords
import QData.Lib.Pieces
/-! The format as a grammar: which bytes stand for which object. The deserializer takes
exactly these bytes for it. -/
set_option autoImplicit false

namespace QData
open Words Requests Languages

/-- A header of one type, with a length in any of the widths the format has for it. Nil has
no length. -/
inductive TypeHeader : Qstype → Nat → Bytes → Prop
  | nil (n : Nat) : TypeHeader .nil n [nilHeader]
  | narrow {h : UInt8} {type : Qstype} {n : Nat} (listed : (h,type) ∈ narrowHeaders)
      (fits : n < max5BitLength) : TypeHeader type n [h ||| UInt8.ofNat n]
  | wide {h : UInt8} {type : Qstype} {w n : Nat} (listed : (h,type,w) ∈ wideHeaders)
      (fits : n < 256 ^ w) : TypeHeader type n (h :: toBytes w n)

/-- The header of an object, behind one with its attribute count or without. A count may be
announced although it is zero, and in front of nil although it has no attributes. -/
inductive ObjectHeader : Qstype → Nat → Nat → Bytes → Prop
  | plain {type : Qstype} {n : Nat} {bs : Bytes} (header : TypeHeader type n bs)
      (object : type ≠ .attribute) : ObjectHeader type n 0 bs
  | counted {type : Qstype} {n k : Nat} {as bs : Bytes} (count : TypeHeader .attribute k as)
      (header : TypeHeader type n bs) (object : type ≠ .attribute) :
      ObjectHeader type n k (as ++ bs)

inductive TextEncodes : Bytes → Bytes → Prop
  | text {x header : Bytes} (encodes : HeaderEncodes x.length header)
      (fits : x.length ≤ maxRCompatibleStringLength) : TextEncodes x (header ++ x)

/-- A record of a string vector. The 32-bit length that means NA is taken for NA. -/
inductive RecordEncodes : Option Bytes → Bytes → Prop
  | na : RecordEncodes none [stringHeaderNA]
  | disguised : RecordEncodes none disguisedNA
  | text {x bs : Bytes} (encodes : TextEncodes x bs) : RecordEncodes (some x) bs

mutual
/-- The header section of an object within `d` scopes. -/
inductive HeadersEncode : Nat → Object → Bytes → Prop
  | nil {d n k : Nat} {bs : Bytes} (header : ObjectHeader .nil n k bs) :
      HeadersEncode (d+1) .nil bs
  | vector {d : Nat} {leaf : Leaf} {attrs : List (Bytes × Object)} {bs as : Bytes}
      (header : ObjectHeader leaf.type leaf.size attrs.length bs)
      (size : leaf.size ≤ maxRCompatibleVectorLength)
      (count : attrs.length ≤ maxRCompatibleAttrCount) (named : AttributesEncode d attrs as) :
      HeadersEncode (d+1) (.vector leaf attrs) (bs ++ as)
  | list {d : Nat} {values : List Object} {attrs : List (Bytes × Object)} {bs as vs : Bytes}
      (header : ObjectHeader .list values.length attrs.length bs)
      (size : values.length ≤ maxRCompatibleVectorLength)
      (count : attrs.length ≤ maxRCompatibleAttrCount) (named : AttributesEncode d attrs as)
      (elements : ValuesEncode d values vs) :
      HeadersEncode (d+1) (.list values attrs) (bs ++ as ++ vs)

inductive AttributesEncode : Nat → List (Bytes × Object) → Bytes → Prop
  | nil {d : Nat} : AttributesEncode d [] []
  | cons {d : Nat} {name : Bytes} {x : Object} {rest : List (Bytes × Object)}
      {ns xs rs : Bytes} (named : TextEncodes name ns) (value : HeadersEncode d x xs)
      (more : AttributesEncode d rest rs) :
      AttributesEncode d ((name,x) :: rest) (ns ++ xs ++ rs)

inductive ValuesEncode : Nat → List Object → Bytes → Prop
  | nil {d : Nat} : ValuesEncode d [] []
  | cons {d : Nat} {x : Object} {rest : List Object} {xs rs : Bytes}
      (value : HeadersEncode d x xs) (more : ValuesEncode d rest rs) :
      ValuesEncode d (x :: rest) (xs ++ rs)
end

mutual
def Object.payloads (g : Group) : Object → List Leaf
  | .nil => []
  | .vector leaf attrs =>
      attrsPayloads g attrs ++ if 0 < leaf.size ∧ leaf.group = g then [leaf] else []
  | .list values attrs => attrsPayloads g attrs ++ valuesPayloads g values

def attrsPayloads (g : Group) : List (Bytes × Object) → List Leaf
  | [] => []
  | (_,x) :: rest => x.payloads g ++ attrsPayloads g rest

def valuesPayloads (g : Group) : List Object → List Leaf
  | [] => []
  | x :: rest => x.payloads g ++ valuesPayloads g rest
end

/-- The payload of a vector: its records, or its elements as they lie in memory. -/
inductive LeafEncodes : Leaf → Bytes → Prop
  | string {records : List (Option Bytes)} {bs : Bytes}
      (encodes : Each RecordEncodes records bs) : LeafEncodes (.string records) bs
  | array {leaf : Leaf} (array : leaf.group ≠ .string) : LeafEncodes leaf leaf.bytes

/-- All bytes of an object: the header section, then the payloads group by group. -/
inductive Encodes (d : Nat) (o : Object) : Bytes → Prop
  | object {headers strings complexes reals integers raws : Bytes}
      (headed : HeadersEncode d o headers)
      (string : Each LeafEncodes (o.payloads .string) strings)
      (complex : Each LeafEncodes (o.payloads .complex) complexes)
      (real : Each LeafEncodes (o.payloads .real) reals)
      (integer : Each LeafEncodes (o.payloads .integer) integers)
      (raw : Each LeafEncodes (o.payloads .raw) raws) :
      Encodes d o (headers ++ (strings ++ (complexes ++ (reals ++ (integers ++ raws)))))

/-! Headers: the decoder takes what the grammar allows. -/

theorem wideHeaders_object {h : UInt8} {type : Qstype} {w : Nat}
    (hm : (h,type,w) ∈ wideHeaders) : type ≠ .nil ∧ WideHeader h type w := by
  have hall : ∀ x ∈ wideHeaders, x.2.1 ≠ .nil ∧ WideHeader x.1 x.2.1 x.2.2 := by decide
  exact hall _ hm

theorem narrowHeaders_object {h : UInt8} {type : Qstype} (hm : (h,type) ∈ narrowHeaders) :
    type ≠ .nil ∧ NarrowHeader h type := by
  have hall : ∀ x ∈ narrowHeaders, x.2 ≠ .nil ∧ NarrowHeader x.1 x.2 := by decide
  exact hall _ hm

theorem TypeHeader.headerFor {type : Qstype} {n : Nat} {bs : Bytes} (h : TypeHeader type n bs)
    (ht : type ≠ .nil) : HeaderFor type n bs := by
  cases h with
  | nil => exact absurd rfl ht
  | narrow listed fits => exact headerFor_narrow (narrowHeaders_object listed).2 fits
  | wide listed fits => exact headerFor_wide (wideHeaders_object listed).2 fits

theorem mem_of_lookup {α β : Type} [BEq α] [LawfulBEq α] {xs : List (α × β)} {a : α} {b : β}
    (h : xs.lookup a = some b) : (a,b) ∈ xs := by
  obtain ⟨l₁,l₂,rfl,_⟩ := List.lookup_eq_some_iff.mp h
  simp

theorem type_or_length (b : UInt8) :
    (b &&& bitmaskType5) ||| UInt8.ofNat (b &&& bitmaskLength5).toNat = b ∧
      (b &&& bitmaskLength5).toNat < max5BitLength := by
  have hall : ∀ n < 256, (UInt8.ofNat n &&& bitmaskType5) |||
      UInt8.ofNat (UInt8.ofNat n &&& bitmaskLength5).toNat = UInt8.ofNat n ∧
        (UInt8.ofNat n &&& bitmaskLength5).toNat < max5BitLength := by decide +kernel
  have h := hall b.toNat b.toNat_lt
  rwa [UInt8.ofNat_toNat] at h

theorem decodeObjectHeader_takes {b : UInt8} {len n : Nat} {type : Qstype} {s t : Bytes}
    (h : (decodeObjectHeader b len).run channel s = .ok ((type,n),t)) :
    ∃ tail, s = tail ++ t ∧ TypeHeader type n (b :: tail) := by
  unfold decodeObjectHeader at h
  split at h
  · split at h
    · next hb =>
      cases h
      subst hb
      exact ⟨[],rfl,.nil _⟩
    · split at h
      · next type' width hlookup =>
        obtain ⟨m,s',hm,hret⟩ := run_bind_eq_ok.mp h
        cases hret
        obtain ⟨hfits,rfl⟩ := getPodContiguous_eq_ok.mp hm
        exact ⟨_,rfl,.wide (mem_of_lookup hlookup) hfits⟩
      · cases h
  · split at h
    · next type' hlookup =>
      cases h
      obtain ⟨hbyte,hfits⟩ := type_or_length b
      have hheader := TypeHeader.narrow (mem_of_lookup hlookup) hfits
      rw [hbyte] at hheader
      exact ⟨[],rfl,hheader⟩
    · cases h

theorem readObjectHeader_takes {type : Qstype} {n k : Nat} {s t : Bytes}
    (h : readObjectHeader.run channel s = .ok ((type,n,k),t)) :
    ∃ header, s = header ++ t ∧ ObjectHeader type n k header := by
  unfold readObjectHeader at h
  obtain ⟨b,s₁,hb,h₀⟩ := run_bind_eq_ok.mp h
  obtain ⟨⟨type₁,n₁⟩,s₂,h₁,h₂⟩ := run_bind_eq_ok.mp h₀
  obtain ⟨_,rfl⟩ := getPod_eq_ok.mp hb
  obtain ⟨tail,rfl,hheader⟩ := decodeObjectHeader_takes h₁
  have hbyte : ∀ b, toBytes 1 b = [UInt8.ofNat b] := fun b => rfl
  rw [hbyte]
  simp only at h₂
  split at h₂
  · next hattr =>
    subst hattr
    obtain ⟨b',s₃,hb',h₃⟩ := run_bind_eq_ok.mp h₂
    obtain ⟨⟨type₂,n₂⟩,s₄,h₄,h₅⟩ := run_bind_eq_ok.mp h₃
    obtain ⟨_,rfl⟩ := getPodContiguous_eq_ok.mp hb'
    obtain ⟨tail',rfl,hheader'⟩ := decodeObjectHeader_takes h₄
    simp only at h₅
    split at h₅
    · cases h₅
    · next hobject =>
      cases h₅
      exact ⟨_,by simp [hbyte],.counted hheader hheader' hobject⟩
  · next hobject =>
    cases h₂
    exact ⟨_,by simp,.plain hheader hobject⟩

theorem TypeHeader.decoded {type : Qstype} {n : Nat} {bs : Bytes} (h : TypeHeader type n bs) :
    ∃ b tail, bs = b :: tail ∧ ∀ len rest, ∃ m,
      (decodeObjectHeader b len).run channel (tail ++ rest) = .ok ((type,m),rest) ∧
        (type ≠ .nil → m = n) := by
  by_cases ht : type = .nil
  · subst ht
    cases h with
    | nil => exact ⟨nilHeader,[],rfl,fun len rest => ⟨len,rfl,fun h => absurd rfl h⟩⟩
    | narrow listed => exact absurd rfl (narrowHeaders_object listed).1
    | wide listed => exact absurd rfl (wideHeaders_object listed).1
  · obtain ⟨b,tail,hbs,hd⟩ := h.headerFor ht
    exact ⟨b,tail,hbs,fun len rest => ⟨n,hd len rest,fun _ => rfl⟩⟩

theorem ObjectHeader.decoded {type : Qstype} {n k : Nat} {bs : Bytes}
    (h : ObjectHeader type n k bs) (rest : Bytes) : ∃ m,
      readObjectHeader.run channel (bs ++ rest) = .ok ((type,m,k),rest) ∧
        (type ≠ .nil → m = n) := by
  cases h with
  | plain header object =>
    obtain ⟨b,tail,rfl,hd⟩ := header.decoded
    obtain ⟨m,hm,heq⟩ := hd 0 rest
    refine ⟨m,?_,heq⟩
    rw [readObjectHeader,List.cons_append,run_bind_ok (run_getPod_byte b _),
      UInt8.ofNat_toNat,run_bind_ok hm]
    simp [object]
  | counted count header object =>
    obtain ⟨a,atail,rfl,had⟩ := count.headerFor (by decide)
    obtain ⟨b,tail,rfl,hd⟩ := header.decoded
    obtain ⟨m,hm,heq⟩ := hd k rest
    refine ⟨m,?_,heq⟩
    rw [readObjectHeader,List.append_assoc,List.cons_append,run_bind_ok (run_getPod_byte a _),
      UInt8.ofNat_toNat,run_bind_ok (had 0 _)]
    simp only [if_true,List.cons_append]
    rw [run_bind_ok (run_getPodContiguous_byte b _),UInt8.ofNat_toNat,run_bind_ok hm]
    simp [object]

theorem ObjectHeader.reads {type : Qstype} {n k : Nat} {bs : Bytes}
    (h : ObjectHeader type n k bs) (ht : type ≠ .nil) : ReadsHeader type n k bs := by
  intro rest
  obtain ⟨m,hm,heq⟩ := h.decoded rest
  rw [hm,heq ht]

/-! What the grammar allows is read. -/

theorem TextEncodes.reads {x bs : Bytes} (h : TextEncodes x bs) :
    ∃ header, bs = header ++ x ∧ x.length ≤ maxRCompatibleStringLength ∧
      ∀ rest, readStringHeader.run channel (header ++ rest) = .ok (x.length,rest) := by
  obtain ⟨encodes,fits⟩ := h
  exact ⟨_,rfl,fits,fun rest => readStringHeader_eq_ok.mpr (.inl ⟨_,encodes,rfl⟩)⟩

theorem Leaf.type_ne (leaf : Leaf) : leaf.type ≠ .nil ∧ leaf.type ≠ .attribute := by
  cases leaf <;> simp [Leaf.type]

mutual
theorem HeadersEncode.reads : {d : Nat} → {o : Object} → {bs : Bytes} →
    HeadersEncode d o bs → (st : Building) → (rest : Bytes) →
    (readInto d st).run channel (bs ++ rest) = .ok (place o.toValue st,rest)
  | _, _, _, .nil header, st, rest => by
      obtain ⟨m,hm,_⟩ := header.decoded rest
      rw [readInto,run_bind_ok hm]
      rfl
  | _, _, _, @HeadersEncode.vector d leaf attrs bs as header size count named, st, rest => by
      have ih := named.reads (st.allocate leaf.blank) rest
      rw [List.append_assoc,readInto_leaf (header.reads leaf.type_ne.1) size count,
        run_bind_ok ih]
      rfl
  | _, _, _, @HeadersEncode.list d values attrs bs as vs header size count named elements,
      st, rest => by
      have iha := named.reads st (vs ++ rest)
      have ihv := elements.reads (placeAttrs (attrsToValues attrs) st).2 rest
      rw [List.append_assoc,List.append_assoc,readInto_list (header.reads (by decide)) size count,
        run_bind_ok iha,run_bind_ok ihv]
      rfl

theorem AttributesEncode.reads : {d : Nat} → {attrs : List (Bytes × Object)} → {bs : Bytes} →
    AttributesEncode d attrs bs → (st : Building) → (rest : Bytes) →
    (readAttributeLoop (readInto d) attrs.length st).run channel (bs ++ rest) =
      .ok (placeAttrs (attrsToValues attrs) st,rest)
  | _, _, _, .nil, st, rest => rfl
  | _, _, _, @AttributesEncode.cons d name x more ns xs rs named value others, st, rest => by
      obtain ⟨header,rfl,hn,hr⟩ := named.reads
      have ihx := value.reads st (rs ++ rest)
      have ih := others.reads (place x.toValue st).2 rest
      rw [List.append_assoc,List.append_assoc,List.length_cons,readAttributeLoop_cons _ hn hr,
        run_bind_ok ihx,run_bind_ok ih]
      rfl

theorem ValuesEncode.reads : {d : Nat} → {values : List Object} → {bs : Bytes} →
    ValuesEncode d values bs → (st : Building) → (rest : Bytes) →
    (readValues (readInto d) values.length st).run channel (bs ++ rest) =
      .ok (placeValues (objectsToValues values) st,rest)
  | _, _, _, .nil, st, rest => rfl
  | _, _, _, @ValuesEncode.cons d x more xs rs value others, st, rest => by
      have ihx := value.reads st (rs ++ rest)
      have ih := others.reads (place x.toValue st).2 rest
      rw [List.append_assoc,List.length_cons,readValues,run_bind_ok ihx,run_bind_ok ih]
      rfl
end

theorem length_attrsToValues (attrs : List (Bytes × Object)) :
    (attrsToValues attrs).length = attrs.length := by
  induction attrs with
  | nil => rfl
  | cons a attrs ih =>
    obtain ⟨name,x⟩ := a
    simp only [attrsToValues,List.length_cons,ih]

theorem length_objectsToValues (values : List Object) :
    (objectsToValues values).length = values.length := by
  induction values with
  | nil => rfl
  | cons x values ih => simp only [objectsToValues,List.length_cons,ih]

theorem fits_of_payloads {leaf : Leaf} {more : List Leaf}
    (h : ∀ x ∈ more ++ (if 0 < leaf.size ∧ leaf.group = .string then [leaf] else []),
      x.StringsFit) : leaf.StringsFit := by
  by_cases hs : 0 < leaf.size ∧ leaf.group = .string
  · rw [if_pos hs] at h
    exact h leaf (List.mem_append_right _ List.mem_cons_self)
  · cases leaf with
    | string records =>
      have hnil : records = [] := by
        by_contra hne
        exact hs ⟨List.length_pos_iff.mpr hne,rfl⟩
      rw [hnil]
      exact fun s hs => by cases hs
    | _ => trivial

mutual
theorem HeadersEncode.within : {d : Nat} → {o : Object} → {bs : Bytes} →
    HeadersEncode d o bs → (∀ leaf ∈ o.payloads .string, leaf.StringsFit) →
    o.toValue.WithinLimits ∧ o.toValue.depth ≤ d
  | _, _, _, .nil _, _ => ⟨trivial,Nat.succ_le_succ (Nat.zero_le _)⟩
  | _, _, _, @HeadersEncode.vector d leaf attrs bs as header size count named, h => by
      obtain ⟨hl,hd⟩ := named.within fun x hx => h x (List.mem_append_left _ hx)
      refine ⟨⟨size,fits_of_payloads h,?_,hl⟩,?_⟩
      · rwa [length_attrsToValues]
      · simp only [Object.toValue,Value.depth]
        omega
  | _, _, _, @HeadersEncode.list d values attrs bs as vs header size count named elements, h => by
      obtain ⟨hl,hd⟩ := named.within fun x hx => h x (List.mem_append_left _ hx)
      obtain ⟨hv,hdv⟩ := elements.within fun x hx => h x (List.mem_append_right _ hx)
      refine ⟨⟨?_,?_,hl,hv⟩,?_⟩
      · rwa [length_objectsToValues]
      · rwa [length_attrsToValues]
      · simp only [Object.toValue,Value.depth]
        omega

theorem AttributesEncode.within : {d : Nat} → {attrs : List (Bytes × Object)} → {bs : Bytes} →
    AttributesEncode d attrs bs → (∀ leaf ∈ attrsPayloads .string attrs, leaf.StringsFit) →
    AttrsWithinLimits (attrsToValues attrs) ∧ attrsDepth (attrsToValues attrs) ≤ d
  | _, _, _, .nil, _ => ⟨trivial,Nat.zero_le _⟩
  | _, _, _, @AttributesEncode.cons d name x more ns xs rs named value others, h => by
      obtain ⟨_,_,hn,_⟩ := named.reads
      obtain ⟨hl,hd⟩ := value.within fun x hx => h x (List.mem_append_left _ hx)
      obtain ⟨hr,hdr⟩ := others.within fun x hx => h x (List.mem_append_right _ hx)
      exact ⟨⟨hn,hl,hr⟩,max_le hd hdr⟩

theorem ValuesEncode.within : {d : Nat} → {values : List Object} → {bs : Bytes} →
    ValuesEncode d values bs → (∀ leaf ∈ valuesPayloads .string values, leaf.StringsFit) →
    ValuesWithinLimits (objectsToValues values) ∧ valuesDepth (objectsToValues values) ≤ d
  | _, _, _, .nil, _ => ⟨trivial,Nat.zero_le _⟩
  | _, _, _, @ValuesEncode.cons d x more xs rs value others, h => by
      obtain ⟨hl,hd⟩ := value.within fun x hx => h x (List.mem_append_left _ hx)
      obtain ⟨hr,hdr⟩ := others.within fun x hx => h x (List.mem_append_right _ hx)
      exact ⟨⟨hl,hr⟩,max_le hd hdr⟩
end

mutual
theorem deferred_payloads (g : Group) : (x : Object) → (budget : Nat) →
    (writeObject budget x.toValue).error = none →
    ((writeObject budget x.toValue).deferred.queue g).map Deferred.leaf = x.payloads g
  | .nil, budget, h => by
      simp only [Object.toValue,writeObject] at h ⊢
      rw [(enterObjectScope_append h).2]
      exact congrArg (List.map Deferred.leaf) (Payloads.queue_empty g)
  | .vector leaf attrs, budget, h => by
      obtain ⟨hbegin,hattrs,hw⟩ := writeObject_vector_ok h
      have ih := deferredAttrs_payloads g attrs (budget-1) hattrs
      rw [Object.toValue,hw,deferred_append_ok hbegin,deferred_append_ok hattrs,
        beginLeafVector_deferred,Payloads.empty_append,Payloads.queue_append,List.map_append,ih,
        deferPayload_queue,Object.payloads]
      split <;> rfl
  | .list values attrs, budget, h => by
      obtain ⟨hbegin,hattrs,hvalues,hw⟩ := writeObject_list_ok h
      have iha := deferredAttrs_payloads g attrs (budget-1) hattrs
      have ihv := deferredValues_payloads g values (budget-1) hvalues
      rw [Object.toValue,hw,deferred_append_ok hbegin,deferred_append_ok hattrs,
        beginListVector_deferred,Payloads.empty_append,Payloads.queue_append,List.map_append,iha,
        ihv,Object.payloads]

theorem deferredAttrs_payloads (g : Group) : (attrs : List (Bytes × Object)) →
    (budget : Nat) → (writeAttributes budget (attrsToValues attrs)).error = none →
    ((writeAttributes budget (attrsToValues attrs)).deferred.queue g).map Deferred.leaf =
      attrsPayloads g attrs
  | [], _, _ => congrArg (List.map Deferred.leaf) (Payloads.queue_empty g)
  | (name,x) :: rest, budget, h => by
      simp only [attrsToValues,writeAttributes] at h ⊢
      obtain ⟨hname,htail⟩ := WriteRun.error_append_eq_none.mp h
      obtain ⟨hx,hrest⟩ := WriteRun.error_append_eq_none.mp htail
      have ihx := deferred_payloads g x budget hx
      have ih := deferredAttrs_payloads g rest budget hrest
      rw [deferred_append_ok hname,deferred_append_ok hx,writeAttributeName,writeText_deferred,
        Payloads.empty_append,Payloads.queue_append,List.map_append,ihx,ih,attrsPayloads]

theorem deferredValues_payloads (g : Group) : (values : List Object) → (budget : Nat) →
    (writeValues budget (objectsToValues values)).error = none →
    ((writeValues budget (objectsToValues values)).deferred.queue g).map Deferred.leaf =
      valuesPayloads g values
  | [], _, _ => congrArg (List.map Deferred.leaf) (Payloads.queue_empty g)
  | x :: rest, budget, h => by
      simp only [objectsToValues,writeValues] at h ⊢
      obtain ⟨hx,hrest⟩ := WriteRun.error_append_eq_none.mp h
      have ihx := deferred_payloads g x budget hx
      have ih := deferredValues_payloads g rest budget hrest
      rw [deferred_append_ok hx,Payloads.queue_append,List.map_append,ihx,ih,valuesPayloads]
end

theorem readStringRecord_encoded {r : Option Bytes} {bs : Bytes} (h : RecordEncodes r bs)
    (rest : Bytes) : readStringRecord.run channel (bs ++ rest) = .ok (r,rest) := by
  cases h with
  | na => exact readStringRecord_none.mpr (readStringHeader_eq_ok.mpr (.inr ⟨rfl,rfl⟩))
  | disguised =>
    exact readStringRecord_none.mpr (readStringHeader_eq_ok.mpr
      (.inl ⟨_,headerEncodes_na.mpr rfl,rfl⟩))
  | text encodes =>
    obtain ⟨header,rfl,fits,hr⟩ := encodes.reads
    exact readStringRecord_some.mpr ⟨by rw [List.append_assoc,hr],fits⟩

theorem readStringPayloads_encoded {records : List (Option Bytes)} {bs : Bytes}
    (h : Each RecordEncodes records bs) (rest : Bytes) :
    (readStringPayloads records.length).run channel (bs ++ rest) = .ok (records,rest) := by
  induction h with
  | nil => rfl
  | cons first _ ih =>
    rw [List.length_cons,readStringPayloads_succ,List.append_assoc,
      run_bind_ok (readStringRecord_encoded first _),run_bind_ok ih]
    rfl

theorem readStringGroup_encoded {leaves : List Leaf} {addresses : List Nat}
    {ds : List Deferred} (hp : Paired .string leaves addresses ds) {bs : Bytes}
    (he : Each LeafEncodes (ds.map Deferred.leaf) bs) (remaining : List Nat) (cells : List Leaf)
    (hf : Filled leaves cells (addresses ++ remaining)) :
    ∃ cells',
      (∀ rest, (readStringGroup addresses cells).run channel (bs ++ rest) = .ok (cells',rest)) ∧
        Filled leaves cells' remaining := by
  induction hp generalizing cells bs with
  | nil =>
    cases he
    exact ⟨cells,fun _ => rfl,hf⟩
  | @cons address d addresses ds hd _ ih =>
    obtain ⟨hl,hk⟩ := hd
    cases he with
    | cons first others =>
      obtain ⟨cells',hr,hf'⟩ := ih others (cells.set address d.leaf) (hf.set hl)
      refine ⟨cells',fun rest => ?_,hf'⟩
      have hsize := hf.getD_size hl
      obtain ⟨records,hrec⟩ := string_of_group hk
      rw [hrec] at first hsize hr
      cases first with
      | string encodes =>
        have hlen : (Leaf.string records).size = records.length := rfl
        rw [readStringGroup,hsize,hlen,List.append_assoc,
          run_bind_ok (readStringPayloads_encoded encodes _)]
        exact hr rest
      | array array => exact absurd rfl array

theorem flushPayloadGroup_encoded {g : Group} (hg : g ≠ .string) {leaves : List Leaf}
    {addresses : List Nat} {ds : List Deferred} (hp : Paired g leaves addresses ds) {bs : Bytes}
    (he : Each LeafEncodes (ds.map Deferred.leaf) bs) :
    bs = pushedBytes (flushPayloadGroup ds).pushed := by
  induction hp generalizing bs with
  | nil =>
    cases he
    rfl
  | @cons address d addresses ds hd _ ih =>
    have hne : d.leaf.group ≠ .string := by rw [hd.2]; exact hg
    have hemit := emitPayload_array hne
    cases he with
    | cons first others =>
      rw [flushPayloadGroup,writeEach,pushedBytes_append_ok hemit.1,hemit.2.1,ih others]
      generalize d.leaf = leaf at first hne
      cases first with
      | string => exact absurd rfl hne
      | array => rfl

theorem strings_fit {leaves : List Leaf} {bs : Bytes} (h : Each LeafEncodes leaves bs) :
    ∀ leaf ∈ leaves, leaf.StringsFit := by
  refine h.forall fun leaf bs hl => ?_
  cases hl with
  | string encodes =>
    intro s hs
    refine encodes.forall (P := fun r => ∀ s, r = some s → s.length ≤ maxRCompatibleStringLength)
      (fun r w hr => ?_) _ hs s rfl
    rintro s rfl
    cases hr with
    | text encodes => exact encodes.reads.choose_spec.2.1
  | array array =>
    cases leaf with
    | string => exact absurd rfl array
    | _ => trivial

/-- Every encoding of an object is read as that object. -/
theorem Encodes.reads {d : Nat} {o : Object} {bs : Bytes} (h : Encodes d o bs) (rest : Bytes) :
    (streamRead d).run channel (bs ++ rest) = .ok (o,rest) := by
  obtain ⟨headed,string,complex,real,integer,raw⟩ := h
  obtain ⟨hl,hd⟩ := headed.within (strings_fit string)
  have hpos := Value.depth_pos _ hl
  have hok := (writeObject_sound o.toValue d).mpr ⟨hl,hd⟩
  have hm := place_start hok.1
  have hq := fun g => deferred_payloads g o d hok.1
  rw [← hq] at string complex real integer raw
  obtain ⟨cells₁,h₁,f₁⟩ := readStringGroup_encoded (hm.paired .string) string _ _ hm.filled
  rw [flushPayloadGroup_encoded (by decide) (hm.paired .complex) complex,
    flushPayloadGroup_encoded (by decide) (hm.paired .real) real,
    flushPayloadGroup_encoded (by decide) (hm.paired .integer) integer,
    flushPayloadGroup_encoded (by decide) (hm.paired .raw) raw]
  obtain ⟨_,cells₂,h₂,f₂⟩ := readArrayGroup_written (by decide) (hm.paired .complex) _ _ f₁
  obtain ⟨_,cells₃,h₃,f₃⟩ := readArrayGroup_written (by decide) (hm.paired .real) _ _ f₂
  obtain ⟨_,cells₄,h₄,f₄⟩ := readArrayGroup_written (by decide) (hm.paired .integer) _ _ f₃
  obtain ⟨_,cells₅,h₅,f₅⟩ := readArrayGroup_written (by decide) (hm.paired .raw) []
    cells₄ (by simpa [Building.queue] using f₄)
  simp only [Building.queue] at h₁ h₂ h₃ h₄ h₅
  simp only [List.append_assoc]
  rw [streamRead,if_neg (by omega),readObject,run_bind_ok (headed.reads {} _)]
  simp only [readObjectData]
  have hr := (resolve_place o.toValue {} [] [] rfl).1
  simp only [List.nil_append,List.append_nil,toObject_toValue] at hr
  rw [bind_assoc,run_bind_ok (h₁ _),bind_assoc,run_bind_ok (h₂ _),bind_assoc,run_bind_ok (h₃ _),
    bind_assoc,run_bind_ok (h₄ _),run_bind_ok (h₅ _),f₅.done,hr]
  rfl

end QData
