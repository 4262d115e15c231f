import QData.BlockBuffer
import QData.WritePaths
import QData.Nesting
/-! The object codec over blocks: the calls of the deserializer fall on the calls of the
stream writer, so an object comes back from its blocks as it does from its bytes, up to the
first payload that is longer than the reader counts. -/
set_option autoImplicit false

namespace QData
open Words Requests

theorem blocksOf_append (block : Bytes) (xs ys : List PushOp) :
    blocksOf block (xs ++ ys) =
      (cutCalls block xs).1 ++ blocksOf (cutCalls block xs).2 ys := by
  simp [blocksOf,cutCalls_append]

theorem InBounds.append {block : Bytes} {xs ys : List PushOp} :
    InBounds block (xs ++ ys) ↔ InBounds block xs ∧ InBounds (cutCalls block xs).2 ys := by
  induction xs generalizing block with
  | nil => simp [InBounds,cutCalls]
  | cons x xs ih => simp [InBounds,cutCalls,ih,and_assoc]

theorem Readable.append {block : Bytes} {xs ys : List PushOp} :
    Readable block (xs ++ ys) ↔ Readable block xs ∧ Readable (cutCalls block xs).2 ys := by
  induction xs generalizing block with
  | nil => simp [Readable,cutCalls]
  | cons x xs ih => simp [Readable,cutCalls,ih,and_assoc]

/-- On blocks that begin with what `ops` push, a program reads exactly that and returns `a`,
or it fails, namely when a payload among them is too long. -/
structure Retraces {α : Type} (ops : List PushOp) (p : Reader α) (a : α) : Prop where
  reads : ∀ {block : Bytes} {later : List PushOp} {c : Cursor Feed},
    block.length ≤ maxBlocksize → InBounds block ops → Readable block ops →
    Positioned block (blocksOf block (ops ++ later)) c →
    ∃ c', p.run (cursor feedSource) c = .ok (a,c') ∧
      Positioned (cutCalls block ops).2 (blocksOf (cutCalls block ops).2 later) c'
  fails : ∀ {block : Bytes} {later : List PushOp} {c : Cursor Feed},
    block.length ≤ maxBlocksize → InBounds block ops → ¬ Readable block ops →
    Positioned block (blocksOf block (ops ++ later)) c →
    ∃ e, p.run (cursor feedSource) c = .error e

def GetOp.Pods : GetOp → Prop
  | .pod size | .podContiguous size => 0 < size
  | .data _ => False

section
variable {α β : Type}

theorem Retraces.nothing (a : α) : Retraces [] (pure a : Reader α) a where
  reads := fun _ _ _ h => ⟨_,rfl,h⟩
  fails := fun _ _ h => absurd trivial h

theorem Retraces.bind {xs ys : List PushOp} {p : Reader α} {f : α → Reader β} {a : α} {b : β}
    (hp : Retraces xs p a) (hf : Retraces ys (f a) b) : Retraces (xs ++ ys) (p >>= f) b where
  reads := by
    intro block later c hb hin hr h
    obtain ⟨hinx,hiny⟩ := InBounds.append.mp hin
    obtain ⟨hrx,hry⟩ := Readable.append.mp hr
    rw [List.append_assoc] at h
    obtain ⟨c₁,h₁,hpos₁⟩ := hp.reads hb hinx hrx h
    obtain ⟨c',h',hpos'⟩ := hf.reads (hinx.rest_le hb) hiny hry hpos₁
    refine ⟨c',by rw [run_bind_ok h₁,h'],?_⟩
    rw [cutCalls_append]
    exact hpos'
  fails := by
    intro block later c hb hin hr h
    obtain ⟨hinx,hiny⟩ := InBounds.append.mp hin
    rw [List.append_assoc] at h
    by_cases hrx : Readable block xs
    · obtain ⟨c₁,h₁,hpos₁⟩ := hp.reads hb hinx hrx h
      have hry : ¬ Readable (cutCalls block xs).2 ys := fun hry =>
        hr (Readable.append.mpr ⟨hrx,hry⟩)
      obtain ⟨e,he⟩ := hf.fails (hinx.rest_le hb) hiny hry hpos₁
      exact ⟨e,by rw [run_bind_ok h₁,he]⟩
    · obtain ⟨e,he⟩ := hp.fails hb hinx hrx h
      exact ⟨e,run_bind_error he⟩

theorem Retraces.data (bs : Bytes) : Retraces [.data bs] (getData bs.length) bs where
  reads := by
    intro block later c _ _ hr h
    obtain ⟨c',hc',hpos⟩ := h.data hr.1.1 hr.1.2
    exact ⟨c',by rw [getData,run_request]; exact hc',hpos⟩
  fails := by
    intro block later c hb _ hr h
    have hwide : ¬ Countable block bs.length := fun hn => hr ⟨⟨hb,hn⟩,trivial⟩
    obtain ⟨e,he⟩ := h.data_wide hb hwide
    exact ⟨e,by rw [getData,run_request]; exact he⟩

theorem pods_inside {p : Reader α} (hp : p.Asks GetOp.Pods) {s t rest : Bytes} {f : Feed} {a : α}
    (hr : p.run channel s = .ok (a,t)) :
    p.run (cursor feedSource) ⟨s ++ rest,f⟩ = .ok (a,⟨t ++ rest,f⟩) := by
  have hstep : ∀ op s c, GetOp.Pods op → c = Cursor.mk (s ++ rest) f →
      Excused (fun _ => True) (fun s c => c = Cursor.mk (s ++ rest) f) (fun _ _ => True)
        (channel op s) (cursor feedSource op c) := by
    rintro op s c hop rfl
    by_cases hl : op.size ≤ s.length
    · have htake : Cursor.take op.size ⟨s ++ rest,f⟩ =
          .ok (s.take op.size,⟨s.drop op.size ++ rest,f⟩) := by
        rw [Cursor.take,if_neg (by rw [List.length_append]; omega)]
        simp only [List.take_append_of_le_length hl,List.drop_append_of_le_length hl]
      have hcursor : cursor feedSource op ⟨s ++ rest,f⟩ =
          .ok (s.take op.size,⟨s.drop op.size ++ rest,f⟩) := by
        cases op with
        | podContiguous size => exact htake
        | data len => exact hop.elim
        | pod size =>
          have hne : s ++ rest ≠ [] := by
            have hpos : 0 < size := hop
            have hle : size ≤ s.length := hl
            exact List.append_ne_nil_of_left_ne_nil (List.length_pos_iff.mp (by omega)) _
          rw [cursor,Cursor.getPod,if_neg hne]
          exact htake
      rw [channel,if_pos hl,hcursor]
      exact .inr ⟨rfl,rfl⟩
    · rw [channel,if_neg hl]
      exact .inl ⟨_,rfl,trivial⟩
  have h := run_excused (fun _ => trivial) hstep hp (rfl : Cursor.mk (s ++ rest) f = _)
  rw [hr] at h
  obtain ⟨c,hc,rfl⟩ := h.of_ok
  exact hc

theorem Retraces.header {r : WriteRun} {n : Nat} (hr : r.Opens n) {p : Reader α}
    {k : Bytes → Reader α} (hp : p = .ask (.pod 1) k) (hpods : p.Asks GetOp.Pods) {a : α}
    (hread : p.run channel (pushedBytes r.pushed) = .ok (a,[])) : Retraces r.pushed p a := by
  subst hp
  obtain ⟨b,tail,rfl,_⟩ := hr
  have hreadable : ∀ block : Bytes, Readable block (.pod [b] :: tail.map .podContiguous) := by
    intro block
    have h : Readable _ (tail.map .podContiguous ++ []) :=
      contiguous_readable (cutCall_pod_room block b).1 trivial
    rw [List.append_nil] at h
    exact ⟨by simp [ReadsBack],h⟩
  refine ⟨?_,fun _ _ h _ => absurd (hreadable _) h⟩
  intro block later c _ _ _ h
  obtain ⟨c₁,h₁,hpos₁⟩ := Positioned.pod (by simp) h
  have hne := (cutCall_pod_room block b).1
  have hcut : cutCalls block (.pod [b] :: tail.map .podContiguous) =
      ((cutCall block (.pod [b])).1,(cutCall block (.pod [b])).2 ++ tail.flatten) := by
    rw [cutCalls,cutCalls_contiguous,List.append_nil]
  rw [hcut]
  generalize (cutCall block (.pod [b])).2 = first at *
  change Positioned first (blocksOf first (tail.map .podContiguous ++ later)) c₁ at hpos₁
  rw [blocksOf_append,cutCalls_contiguous,List.nil_append] at hpos₁
  rcases hpos₁ with hpos₁ | ⟨hnil,_⟩
  · obtain ⟨htake,_,hpos⟩ := Positioned.inside (by simp [hne]) hpos₁
    have hpending : c₁ = ⟨tail.flatten ++ c₁.pending.drop tail.flatten.length,c₁.source⟩ := by
      conv_lhs => rw [show c₁ = ⟨c₁.pending,c₁.source⟩ from rfl,
        ← List.take_append_drop tail.flatten.length c₁.pending,htake]
    have hbyte : channel (.pod 1) (b :: tail.flatten) = .ok ([b],tail.flatten) :=
      channel_append (.pod 1) [b] rfl tail.flatten
    rw [pushedBytes_cons,pushedBytes_contiguous] at hread
    have hrest : (k [b]).run channel tail.flatten = .ok (a,[]) := by
      simpa only [Prog.run,PushOp.bytes,List.singleton_append,hbyte] using hread
    refine ⟨_,?_,hpos⟩
    have hask : cursor feedSource (.pod 1) c = .ok ([b],c₁) := h₁
    have hrun := @pods_inside _ _ (hpods.2 [b]) _ _ (c₁.pending.drop tail.flatten.length)
      c₁.source _ hrest
    rw [← hpending] at hrun
    simp only [Prog.run,hask,hrun,List.nil_append]
  · exact absurd hnil hne

theorem Retraces.value {xs : List PushOp} {p : Reader α} {a : α} (hp : Retraces xs p a)
    (g : α → β) : Retraces xs (p >>= fun a => pure (g a)) (g a) := by
  have h := hp.bind (f := fun a => pure (g a)) (.nothing (g a))
  rwa [List.append_nil] at h

end

/-! The header pass. -/

theorem pushed_append_ok {a b : WriteRun} (h : a.error = none) :
    (a ++ b).pushed = a.pushed ++ b.pushed := by
  simp [WriteRun.append_ok h]

theorem beginVector_opens {what : String} {header : Nat → Nat → WriteRun} {size attrCount : Nat}
    (hh : Header (header size attrCount))
    (h : (beginVector what header size attrCount).error = none) :
    (beginVector what header size attrCount).Opens 13 := by
  by_cases hl : size ≤ maxRCompatibleVectorLength ∧ attrCount ≤ maxRCompatibleAttrCount
  · rw [beginVector,checkedObjectLength,if_neg (by omega),checkedAttrCount,if_neg (by omega),
      WriteRun.empty_append,WriteRun.empty_append]
    exact hh.opens
  · obtain ⟨e,he⟩ := @beginVector_rejects what header size attrCount hl
    rw [he] at h
    cases h

theorem beginLeafVector_opens {leaf : Leaf} {attrCount : Nat}
    (h : (beginLeafVector leaf attrCount).error = none) :
    (beginLeafVector leaf attrCount).Opens 13 := by
  cases leaf with
  | logical xs => exact beginVector_opens (.logical _ _) h
  | integer xs => exact beginVector_opens (.integer _ _) h
  | real xs => exact beginVector_opens (.real _ _) h
  | complex xs => exact beginVector_opens (.complex _ _) h
  | string xs => exact beginVector_opens (.character _ _) h
  | raw xs => exact beginVector_opens (.raw _ _) h

theorem readObjectHeader_retraces {r : WriteRun} {type : Qstype} {length attrLength : Nat}
    {bs : Bytes} (hr : r.Opens 13) (he : Emits r bs)
    (hread : ReadsHeader type length attrLength bs) :
    Retraces r.pushed readObjectHeader (type,length,attrLength) := by
  have hbytes := hread []
  rw [List.append_nil,← he.2.1] at hbytes
  exact .header hr rfl (readObjectHeader_asks (fun _ h _ => h) fun _ h _ => h) hbytes

theorem readStringHeader_retraces {n : Nat} (hn : n ≤ maxRCompatibleStringLength) :
    Retraces (writeStringHeader n).pushed readStringHeader n := by
  have hlt : n < 2 ^ 32 := by simp only [maxRCompatibleStringLength] at hn; omega
  obtain ⟨bs,he,hread⟩ := writeStringHeader_reads hlt
  have hbytes := hread []
  rw [List.append_nil,← he.2.1] at hbytes
  exact .header (writeStringHeader_opens n) rfl
    (readStringHeader_asks (fun _ h _ => h) fun _ h _ => h) hbytes

theorem writeText_calls {s : Bytes} (hs : s.length ≤ maxRCompatibleStringLength) :
    (writeText s).pushed = (writeStringHeader s.length).pushed ++
      (if s.length > 0 then pushData s else {}).pushed := by
  obtain ⟨n,tail,hopen,_⟩ := writeStringHeader_opens s.length
  rw [writeText,checkedStringLength,if_neg (by omega),WriteRun.empty_append,
    pushed_append_ok (by rw [hopen])]

theorem readAttributeLoop_retraces {self : Building → Reader (Shell × Building)} {name : Bytes}
    (hn : name.length ≤ maxRCompatibleStringLength) {xs ys : List PushOp} {n : Nat}
    {st st' st'' : Building} {x : Shell} {rest : List (Bytes × Shell)}
    (hx : Retraces xs (self st) (x,st'))
    (hrest : Retraces ys (readAttributeLoop self n st') (rest,st'')) :
    Retraces ((writeText name).pushed ++ (xs ++ ys)) (readAttributeLoop self (n+1) st)
      ((name,x) :: rest,st'') := by
  have hna : name.length ≠ naStringLength := by
    simp only [maxRCompatibleStringLength] at hn
    simp only [naStringLength]
    omega
  rw [writeText_calls hn,List.append_assoc,readAttributeLoop]
  refine (readStringHeader_retraces hn).bind ?_
  rw [if_neg hna,checkedRCompatibleStringSize,if_neg (Nat.not_lt.mpr hn)]
  by_cases hz : name.length > 0
  · simp only [if_pos hz]
    refine (Retraces.data name).bind ?_
    exact hx.bind (hrest.value _)
  · have hnil : name = [] := List.eq_nil_of_length_eq_zero (by omega)
    subst hnil
    simp only [if_neg hz]
    exact hx.bind (hrest.value _)

theorem readAttributes_eq {self : Building → Reader (Shell × Building)} {n : Nat}
    (hn : n ≤ maxRCompatibleAttrCount) (st : Building) :
    readAttributes self n st = readAttributeLoop self n st := by
  rw [readAttributes,checkedRCompatibleAttrCount,if_neg (Nat.not_lt.mpr hn)]
  rfl

mutual
theorem readInto_retraces : (v : Value) → (budget d : Nat) → (st : Building) →
    (writeObject budget v).error = none → v.depth ≤ d →
    Retraces (writeObject budget v).pushed (readInto d st) (place v st)
  | .nil, budget, d, st, h, hd => by
      simp only [writeObject] at h ⊢
      rw [(enterObjectScope_append h).2]
      obtain ⟨d,rfl⟩ : ∃ k, d = k+1 := ⟨d-1,by rw [Value.depth] at hd; omega⟩
      have hheader : Retraces (pushPod [nilHeader]).pushed readObjectHeader (.nil,0,0) :=
        .header (pushPod_opens nilHeader) rfl
          (readObjectHeader_asks (fun _ h _ => h) fun _ h _ => h) rfl
      rw [place,readInto]
      exact hheader.bind (.nothing _)
  | .vector access leaf attrs, budget, d, st, h, hd => by
      obtain ⟨hbegin,hattrs,hw⟩ := writeObject_vector_ok h
      rw [Value.depth] at hd
      obtain ⟨d,rfl⟩ : ∃ k, d = k+1 := ⟨d-1,by omega⟩
      obtain ⟨hs,ha⟩ := beginLeafVector_error hbegin
      obtain ⟨bs,he,hr⟩ := beginLeafVector_reads hs ha
      rw [hw,pushed_append_ok hbegin,pushed_append_ok hattrs,deferPayload_pushed,List.append_nil,
        place,readInto]
      have hread : ∀ what : String, Retraces (writeAttributes (budget-1) attrs).pushed
          (readVector (readInto d) leaf.ofSize what leaf.size attrs.length st)
          (.vector st.cells.length (placeAttrs attrs (st.allocate leaf.blank)).1,
            (placeAttrs attrs (st.allocate leaf.blank)).2.register st.cells.length leaf.blank) := by
        intro what
        have ih := readAttributes_retraces attrs (budget-1) d (st.allocate leaf.blank) hattrs
          (by omega)
        simp only [readVector,checkedRCompatibleVectorSize,if_neg (Nat.not_lt.mpr hs),
          readAttributes_eq ha]
        exact ih.value _
      refine (readObjectHeader_retraces (beginLeafVector_opens hbegin) he hr).bind ?_
      cases leaf <;> exact hread _
  | .list values attrs, budget, d, st, h, hd => by
      obtain ⟨hbegin,hattrs,hvalues,hw⟩ := writeObject_list_ok h
      rw [Value.depth] at hd
      obtain ⟨d,rfl⟩ : ∃ k, d = k+1 := ⟨d-1,by omega⟩
      obtain ⟨hs,ha⟩ := beginListVector_error hbegin
      obtain ⟨bs,he,hr⟩ := beginListVector_reads hs ha
      have iha := readAttributes_retraces attrs (budget-1) d st hattrs (by omega)
      have ihv := readValues_retraces values (budget-1) d (placeAttrs attrs st).2 hvalues
        (by omega)
      rw [hw,pushed_append_ok hbegin,pushed_append_ok hattrs,place,readInto]
      refine (readObjectHeader_retraces (beginVector_opens (.list _ _) hbegin) he hr).bind ?_
      simp only [readAttributes_eq ha]
      refine iha.bind ?_
      simp only [checkedRCompatibleVectorSize,if_neg (Nat.not_lt.mpr hs)]
      exact ihv.value _
  | .writable v, budget, d, st, h, hd => readInto_retraces v budget d st h hd
  | .uninitialized, _, _, _, h, _ => by cases h

theorem readAttributes_retraces : (attrs : List (Bytes × Value)) → (budget d : Nat) →
    (st : Building) → (writeAttributes budget attrs).error = none → attrsDepth attrs ≤ d →
    Retraces (writeAttributes budget attrs).pushed
      (readAttributeLoop (readInto d) attrs.length st) (placeAttrs attrs st)
  | [], _, _, _, _, _ => .nothing _
  | (name,v) :: attrs, budget, d, st, h, hd => by
      simp only [writeAttributes] at h ⊢
      obtain ⟨hname,htail⟩ := WriteRun.error_append_eq_none.mp h
      obtain ⟨hv,hattrs⟩ := WriteRun.error_append_eq_none.mp htail
      rw [attrsDepth] at hd
      have ihv := readInto_retraces v budget d st hv (by omega)
      have iha := readAttributes_retraces attrs budget d (place v st).2 hattrs (by omega)
      rw [pushed_append_ok hname,pushed_append_ok hv,placeAttrs]
      exact readAttributeLoop_retraces (writeText_error hname) ihv iha

theorem readValues_retraces : (values : List Value) → (budget d : Nat) → (st : Building) →
    (writeValues budget values).error = none → valuesDepth values ≤ d →
    Retraces (writeValues budget values).pushed (readValues (readInto d) values.length st)
      (placeValues values st)
  | [], _, _, _, _, _ => .nothing _
  | v :: values, budget, d, st, h, hd => by
      simp only [writeValues] at h ⊢
      obtain ⟨hv,hvalues⟩ := WriteRun.error_append_eq_none.mp h
      rw [valuesDepth] at hd
      have ihv := readInto_retraces v budget d st hv (by omega)
      have ihs := readValues_retraces values budget d (place v st).2 hvalues (by omega)
      rw [pushed_append_ok hv,placeValues]
      exact ihv.bind (ihs.value _)
end

/-! The payload pass, with every array handed over in one piece. -/

theorem readStringPayloads_retraces (records : List (Option Bytes))
    (h : (writeEach writeStringValue records).error = none) :
    Retraces (writeEach writeStringValue records).pushed (readStringPayloads records.length)
      records := by
  induction records with
  | nil => exact .nothing []
  | cons r records ih =>
    rw [writeEach] at h ⊢
    obtain ⟨hr,ht⟩ := WriteRun.error_append_eq_none.mp h
    have ih := ih ht
    rw [pushed_append_ok hr,List.length_cons,readStringPayloads]
    cases r with
    | none =>
      have hheader : Retraces (writeStringValue none).pushed readStringHeader naStringLength :=
        .header (pushPod_opens stringHeaderNA) rfl
          (readStringHeader_asks (fun _ h _ => h) fun _ h _ => h) (readStringHeader_na [])
      refine hheader.bind ?_
      rw [if_pos rfl]
      exact ih.value _
    | some s =>
      have hs : s.length ≤ maxRCompatibleStringLength := writeText_error hr
      have hna : s.length ≠ naStringLength := by
        simp only [maxRCompatibleStringLength] at hs
        simp only [naStringLength]
        omega
      rw [writeStringValue,writeText_calls hs,List.append_assoc]
      refine (readStringHeader_retraces hs).bind ?_
      rw [if_neg hna]
      by_cases hz : s.length = 0
      · have hnil : s = [] := List.eq_nil_of_length_eq_zero hz
        subst hnil
        rw [if_pos hz]
        exact ih.value _
      · rw [if_neg hz,if_pos (Nat.pos_of_ne_zero hz),checkedRCompatibleStringSize,
          if_neg (Nat.not_lt.mpr hs)]
        refine (Retraces.data s).bind ?_
        exact ih.value _

theorem Retraces.noData : Retraces [] (getData 0) [] where
  reads := by
    intro block later c _ _ _ h
    refine ⟨c,?_,h⟩
    simp [getData,cursor,Cursor.getData]
  fails := fun _ _ h => absurd trivial h

theorem getPayload_retraces {d : Deferred} (h : d.leaf.group ≠ .string) :
    Retraces (emitPayload d.native).pushed (getData d.leaf.byteSize) d.leaf.bytes := by
  have harray : ∀ {α : Type} (put : α → Bytes) (xs : List α),
      Retraces (emitArray put .direct xs).pushed (getData (pack put xs).length) (pack put xs) := by
    intro α put xs
    rw [emitArray,writeArrayData]
    by_cases hx : xs.length > 0
    · rw [if_pos hx]
      exact .data _
    · have hn : xs = [] := List.eq_nil_of_length_eq_zero (by omega)
      subst hn
      exact .noData
  obtain ⟨access,leaf⟩ := d
  rw [← Leaf.length_bytes]
  cases leaf with
  | string records => exact absurd rfl h
  | _ => exact harray _ _

theorem readArrayGroup_retraces {g : Group} (hg : g ≠ .string) {leaves : List Leaf}
    {addresses : List Nat} {ds : List Deferred} (hp : Paired g leaves addresses ds)
    (remaining : List Nat) (cells : List Leaf)
    (hf : Filled leaves cells (addresses ++ remaining)) :
    ∃ cells', Retraces (flushPayloadGroup (ds.map Deferred.native)).pushed
        (readArrayGroup addresses cells) cells' ∧ Filled leaves cells' remaining := by
  induction hp generalizing cells with
  | nil => exact ⟨cells,.nothing cells,hf⟩
  | @cons address d addresses ds hd _ ih =>
    obtain ⟨hl,hk⟩ := hd
    have hne : d.leaf.group ≠ .string := by rw [hk]; exact hg
    have hemit : (emitPayload d.native).error = none := (@emitPayload_array d.native hne).1
    obtain ⟨cells',hr,hf'⟩ := ih (cells.set address d.leaf) (hf.set hl)
    refine ⟨cells',?_,hf'⟩
    have hcell := hf.getD hl
    have hsize : (cells.getD address (.raw [])).byteSize = d.leaf.byteSize := by
      rcases hcell with hc | hc
      · rw [hc]
      · rw [hc,Leaf.byteSize_blank]
    have hfill : (cells.getD address (.raw [])).fill d.leaf.bytes = d.leaf := by
      rcases hcell with hc | hc
      · rw [hc,Leaf.fill_bytes hne]
      · rw [hc,Leaf.fill_blank _ _ hne,Leaf.fill_bytes hne]
    rw [List.map_cons,flushPayloadGroup,writeEach,pushed_append_ok hemit,readArrayGroup,
      hsize]
    refine (getPayload_retraces hne).bind ?_
    rw [hfill]
    exact hr

theorem readStringGroup_retraces {leaves : List Leaf} {addresses : List Nat}
    {ds : List Deferred} (hp : Paired .string leaves addresses ds)
    (remaining : List Nat) (cells : List Leaf)
    (hf : Filled leaves cells (addresses ++ remaining))
    (hok : (flushPayloadGroup (ds.map Deferred.native)).error = none) :
    ∃ cells', Retraces (flushPayloadGroup (ds.map Deferred.native)).pushed
        (readStringGroup addresses cells) cells' ∧ Filled leaves cells' remaining := by
  induction hp generalizing cells with
  | nil => exact ⟨cells,.nothing cells,hf⟩
  | @cons address d addresses ds hd _ ih =>
    obtain ⟨hl,hk⟩ := hd
    obtain ⟨records,hrec⟩ := string_of_group hk
    obtain ⟨hemit,htail⟩ := WriteRun.error_append_eq_none.mp hok
    have hbody : emitPayload d.native = writeEach writeStringValue records := by
      rw [emitPayload,Deferred.native,hrec]
    obtain ⟨cells',hr,hf'⟩ := ih (cells.set address d.leaf) (hf.set hl) htail
    refine ⟨cells',?_,hf'⟩
    have hsize : (cells.getD address (.raw [])).size = records.length := by
      rw [hf.getD_size hl,hrec,Leaf.size]
    rw [hbody] at hemit
    rw [List.map_cons,flushPayloadGroup,writeEach,hbody,pushed_append_ok hemit,readStringGroup,
      hsize]
    refine (readStringPayloads_retraces records hemit).bind ?_
    rw [← hrec]
    exact hr

theorem readObjectData_retraces {leaves : List Leaf} {st : Building} {p : Payloads}
    (h : Matches leaves st p []) (hok : (flushPayloads p.native).error = none) :
    Retraces (flushPayloads p.native).pushed (readObjectData st) leaves := by
  obtain ⟨hs,hc⟩ := WriteRun.error_append_eq_none.mp hok
  obtain ⟨hcx,hr⟩ := WriteRun.error_append_eq_none.mp hc
  obtain ⟨hre,hi⟩ := WriteRun.error_append_eq_none.mp hr
  obtain ⟨hin,hra⟩ := WriteRun.error_append_eq_none.mp hi
  obtain ⟨cells₁,h₁,f₁⟩ := readStringGroup_retraces (h.paired .string) _ _ h.filled hs
  obtain ⟨cells₂,h₂,f₂⟩ := readArrayGroup_retraces (by decide) (h.paired .complex) _ _ f₁
  obtain ⟨cells₃,h₃,f₃⟩ := readArrayGroup_retraces (by decide) (h.paired .real) _ _ f₂
  obtain ⟨cells₄,h₄,f₄⟩ := readArrayGroup_retraces (by decide) (h.paired .integer) _ _ f₃
  obtain ⟨cells₅,h₅,f₅⟩ := readArrayGroup_retraces (by decide) (h.paired .raw) []
    cells₄ (by simpa [Building.queue] using f₄)
  rw [f₅.done] at h₅
  rw [flushPayloads,pushed_append_ok hs,pushed_append_ok hcx,pushed_append_ok hre,
    pushed_append_ok hin,readObjectData]
  exact h₁.bind (h₂.bind (h₃.bind (h₄.bind h₅)))

mutual
theorem Value.initialized : (v : Value) → v.WithinLimits → v.Initialized
  | .nil, _ => trivial
  | .vector _ _ attrs, h => attrs_initialized attrs h.2.2.2
  | .list values attrs, h => ⟨attrs_initialized attrs h.2.2.1,values_initialized values h.2.2.2⟩
  | .writable v, h => v.initialized h
  | .uninitialized, h => h

theorem attrs_initialized : (attrs : List (Bytes × Value)) → AttrsWithinLimits attrs →
    AttrsInitialized attrs
  | [], _ => trivial
  | (_,v) :: rest, h => ⟨v.initialized h.2.1,attrs_initialized rest h.2.2⟩

theorem values_initialized : (values : List Value) → ValuesWithinLimits values →
    ValuesInitialized values
  | [], _ => trivial
  | v :: rest, h => ⟨v.initialized h.1,values_initialized rest h.2⟩
end

/-- The deserializer over the calls that write a native object. -/
theorem streamRead_retraces {v : Value} {maxDepth d : Nat}
    (h : (streamWrite maxDepth v).error = none) (hd : v.depth ≤ d) :
    Retraces (streamWrite maxDepth v.native).pushed (streamRead d) v.toObject := by
  obtain ⟨hmax,hl,_⟩ := streamWrite_error.mp h
  have hpos := v.depth_pos hl
  have hinit := v.initialized hl
  have hnative := (streamWrite_sameBlocks hinit maxDepth).error
  rw [h] at hnative
  have hobj : (writeObject maxDepth v).error = none := by
    rw [streamWrite] at h
    exact (WriteRun.error_append_eq_none.mp (WriteRun.error_append_eq_none.mp h).2).1
  have hw := writeObject_native v hinit maxDepth
  have hsplit : streamWrite maxDepth v.native =
      (writeObject maxDepth v).native ++ flushPayloads (writeObject maxDepth v).deferred.native := by
    rw [streamWrite,checkedMaxNestingDepth,if_neg hmax,WriteRun.empty_append,← hw]
    rfl
  have hheaders : (writeObject maxDepth v).native.error = none := hobj
  rw [hsplit] at hnative ⊢
  have hflush := (WriteRun.error_append_eq_none.mp hnative.symm).2
  have hplace := (resolve_place v {} [] [] rfl).1
  simp only [List.nil_append,List.append_nil] at hplace
  rw [pushed_append_ok hheaders,streamRead,if_neg (by omega),← hplace]
  refine (readInto_retraces v maxDepth d {} hobj hd).bind ?_
  exact (readObjectData_retraces (place_start hobj) hflush).value _

end QData
