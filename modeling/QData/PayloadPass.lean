import QData.HeaderPass
/-! The payload groups of the writer and the address queues of the reader are the same
sequence, so the payload pass fills every vector with its own elements. -/
set_option autoImplicit false

namespace QData
open Words Requests

mutual
def Value.leaves : Value → List Leaf
  | .nil => []
  | .vector _ leaf attrs => leaf :: attrsLeaves attrs
  | .list values attrs => attrsLeaves attrs ++ valuesLeaves values
  | .writable v => v.leaves
  | .uninitialized => []

def attrsLeaves : List (Bytes × Value) → List Leaf
  | [] => []
  | (_,v) :: rest => v.leaves ++ attrsLeaves rest

def valuesLeaves : List Value → List Leaf
  | [] => []
  | v :: rest => v.leaves ++ valuesLeaves rest
end

inductive Group where
  | string | complex | real | integer | raw
  deriving DecidableEq, Repr

def Leaf.group : Leaf → Group
  | .logical _ | .integer _ => .integer
  | .real _ => .real
  | .complex _ => .complex
  | .string _ => .string
  | .raw _ => .raw

def Payloads.queue (p : Payloads) : Group → List Deferred
  | .string => p.string
  | .complex => p.complex
  | .real => p.real
  | .integer => p.integer
  | .raw => p.raw

def Building.queue (st : Building) : Group → List Nat
  | .string => st.stringPayloads
  | .complex => st.complexPayloads
  | .real => st.realPayloads
  | .integer => st.integerPayloads
  | .raw => st.rawPayloads

@[simp] theorem Payloads.queue_empty (g : Group) : ({} : Payloads).queue g = [] := by
  cases g <;> rfl

@[simp] theorem Payloads.queue_append (p q : Payloads) (g : Group) :
    (p.append q).queue g = p.queue g ++ q.queue g := by cases g <;> rfl

@[simp] theorem Building.queue_empty (g : Group) : ({} : Building).queue g = [] := by
  cases g <;> rfl

@[simp] theorem Building.queue_allocate (st : Building) (leaf : Leaf) (g : Group) :
    (st.allocate leaf).queue g = st.queue g := by cases g <;> rfl

@[simp] theorem Leaf.group_blank (leaf : Leaf) : leaf.blank.group = leaf.group := by
  cases leaf <;> rfl

theorem Building.queue_register (st : Building) (address : Nat) (leaf : Leaf) (g : Group) :
    (st.register address leaf).queue g =
      st.queue g ++ if 0 < leaf.size ∧ leaf.group = g then [address] else [] := by
  by_cases h : 0 < leaf.size
  · cases leaf <;> cases g <;> simp_all [Building.register,Building.queue,Leaf.group]
  · simp [Building.register,h]

@[simp] theorem Building.cells_register (st : Building) (address : Nat) (leaf : Leaf) :
    (st.register address leaf).cells = st.cells := by
  by_cases h : 0 < leaf.size
  · cases leaf <;> simp_all [Building.register]
  · simp [Building.register,h]

theorem deferPayload_queue (d : Deferred) (g : Group) :
    (deferPayload d).deferred.queue g =
      if 0 < d.leaf.size ∧ d.leaf.group = g then [d] else [] := by
  obtain ⟨access,leaf⟩ := d
  by_cases h : 0 < leaf.size
  · cases leaf <;> cases g <;> simp_all [deferPayload,Payloads.queue,Leaf.group]
  · simp [deferPayload,h]

/-- A queue of addresses and a queue of payloads that hold the same vectors, entry by
entry, all of one group. -/
def Paired (g : Group) (leaves : List Leaf) : List Nat → List Deferred → Prop :=
  List.Forall₂ fun address d => leaves[address]? = some d.leaf ∧ d.leaf.group = g

theorem Paired.append {g : Group} {leaves : List Leaf} {as bs : List Nat}
    {ds es : List Deferred} (h : Paired g leaves as ds) (k : Paired g leaves bs es) :
    Paired g leaves (as ++ bs) (ds ++ es) := by
  induction h with
  | nil => exact k
  | cons hd _ ih => exact .cons hd ih

theorem getElem?_grow {leaves : List Leaf} {address : Nat} {leaf : Leaf}
    (h : leaves[address]? = some leaf) (more : List Leaf) :
    (leaves ++ more)[address]? = some leaf := by
  rw [List.getElem?_append_left (List.getElem?_eq_some_iff.mp h).1]
  exact h

theorem Paired.grow {g : Group} {leaves : List Leaf} {as : List Nat} {ds : List Deferred}
    (h : Paired g leaves as ds) (more : List Leaf) : Paired g (leaves ++ more) as ds := by
  induction h with
  | nil => exact .nil
  | cons hd _ ih => exact .cons ⟨getElem?_grow hd.1 more,hd.2⟩ ih

/-- The reader's state after the header pass over vectors `leaves` whose payloads `p`
the writer put off. Vectors still pending are resized but not yet registered. -/
structure Matches (leaves : List Leaf) (st : Building) (p : Payloads) (pending : List Nat) :
    Prop where
  cells : st.cells = leaves.map Leaf.blank
  paired : ∀ g, Paired g leaves (st.queue g) (p.queue g)
  covered : ∀ address leaf, leaves[address]? = some leaf → 0 < leaf.size →
    address ∈ st.queue leaf.group ∨ address ∈ pending

theorem Matches.start : Matches [] {} {} [] :=
  ⟨rfl,fun g => by simp [Paired],by simp⟩

theorem Matches.length {leaves : List Leaf} {st : Building} {p : Payloads} {pending : List Nat}
    (h : Matches leaves st p pending) : st.cells.length = leaves.length := by
  rw [h.cells,List.length_map]

theorem Matches.allocate {leaves : List Leaf} {st : Building} {p : Payloads}
    {pending : List Nat} (h : Matches leaves st p pending) (leaf : Leaf) :
    Matches (leaves ++ [leaf]) (st.allocate leaf.blank) p (leaves.length :: pending) where
  cells := by simp [Building.allocate,h.cells]
  paired g := by simpa using (h.paired g).grow [leaf]
  covered := by
    intro address x hx hs
    by_cases ha : address < leaves.length
    · rw [List.getElem?_append_left ha] at hx
      rcases h.covered address x hx hs with hq | hp
      · exact .inl (by simpa using hq)
      · exact .inr (List.mem_cons_of_mem _ hp)
    · have hb := (List.getElem?_eq_some_iff.mp hx).1
      have he : address = leaves.length := by simp at hb; omega
      exact .inr (he ▸ List.mem_cons_self)

theorem Matches.register {leaves : List Leaf} {st : Building} {p : Payloads} {address : Nat}
    {pending : List Nat} (h : Matches leaves st p (address :: pending)) {leaf : Leaf}
    (hl : leaves[address]? = some leaf) (access : Access) :
    Matches leaves (st.register address leaf.blank)
      (p.append (deferPayload ⟨access,leaf⟩).deferred) pending where
  cells := by simp [h.cells]
  paired g := by
    rw [Building.queue_register,Payloads.queue_append,deferPayload_queue,Leaf.size_blank,
      Leaf.group_blank]
    refine (h.paired g).append ?_
    by_cases hg : 0 < leaf.size ∧ leaf.group = g
    · rw [if_pos hg,if_pos hg]
      exact .cons ⟨hl,hg.2⟩ .nil
    · rw [if_neg hg,if_neg hg]
      exact .nil
  covered := by
    intro a x hx hs
    rw [Building.queue_register,Leaf.size_blank,Leaf.group_blank]
    rcases h.covered a x hx hs with hm | hm
    · exact .inl (List.mem_append_left _ hm)
    rcases List.mem_cons.mp hm with rfl | hm
    · have hxl : x = leaf := by rw [hx] at hl; exact Option.some.inj hl
      subst hxl
      exact .inl (by simp [hs])
    · exact .inr hm

@[simp] theorem Payloads.append_empty (p : Payloads) : p.append {} = p := by
  simp [Payloads.append]

@[simp] theorem Payloads.empty_append (p : Payloads) : ({} : Payloads).append p = p := by
  simp [Payloads.append]

theorem Payloads.append_assoc (p q r : Payloads) :
    (p.append q).append r = p.append (q.append r) := by
  simp [Payloads.append]

theorem writeText_deferred (s : Bytes) : (writeText s).deferred = {} := by
  by_cases hs : s.length ≤ maxRCompatibleStringLength
  · obtain ⟨_,he,_⟩ := writeText_emits hs
    exact he.2.2
  · rw [writeText_rejects hs]
    rfl

theorem beginLeafVector_deferred (leaf : Leaf) (attrCount : Nat) :
    (beginLeafVector leaf attrCount).deferred = {} := by
  by_cases hl : leaf.size ≤ maxRCompatibleVectorLength ∧ attrCount ≤ maxRCompatibleAttrCount
  · obtain ⟨_,he,_⟩ := beginLeafVector_reads hl.1 hl.2
    exact he.2.2
  · obtain ⟨_,he⟩ := beginLeafVector_rejects hl
    rw [he]
    rfl

theorem beginListVector_deferred (size attrCount : Nat) :
    (beginListVector size attrCount).deferred = {} := by
  by_cases hl : size ≤ maxRCompatibleVectorLength ∧ attrCount ≤ maxRCompatibleAttrCount
  · obtain ⟨_,he,_⟩ := beginListVector_reads hl.1 hl.2
    exact he.2.2
  · obtain ⟨_,he⟩ := beginVector_rejects hl
    rw [beginListVector,he]
    rfl

mutual
/-- The header passes of the two sides keep in step: the reader's queues grow by what the
writer defers. -/
theorem place_matches : (v : Value) → (budget : Nat) → {leaves : List Leaf} →
    {st : Building} → {p : Payloads} → {pending : List Nat} →
    (writeObject budget v).error = none → Matches leaves st p pending →
    Matches (leaves ++ v.leaves) (place v st).2 (p.append (writeObject budget v).deferred)
      pending
  | .nil, budget, leaves, st, p, pending, h, hm => by
      simp only [writeObject] at h ⊢
      rw [(enterObjectScope_append h).2]
      simpa [Value.leaves,place,pushPod] using hm
  | .vector access leaf attrs, budget, leaves, st, p, pending, h, hm => by
      obtain ⟨hbegin,hattrs,hw⟩ := writeObject_vector_ok h
      rw [hw]
      have ih := placeAttrs_matches attrs (budget-1) hattrs (hm.allocate leaf)
      have hl : (leaves ++ [leaf] ++ attrsLeaves attrs)[leaves.length]? = some leaf := by simp
      have hr := ih.register hl access
      rw [deferred_append_ok hbegin,deferred_append_ok hattrs,beginLeafVector_deferred,
        Payloads.empty_append,← Payloads.append_assoc]
      simpa [place,Value.leaves,hm.length] using hr
  | .list values attrs, budget, leaves, st, p, pending, h, hm => by
      obtain ⟨hbegin,hattrs,hvalues,hw⟩ := writeObject_list_ok h
      rw [hw]
      have iha := placeAttrs_matches attrs (budget-1) hattrs hm
      have ihv := placeValues_matches values (budget-1) hvalues iha
      rw [deferred_append_ok hbegin,deferred_append_ok hattrs,beginListVector_deferred,
        Payloads.empty_append,← Payloads.append_assoc]
      simpa [place,Value.leaves] using ihv
  | .writable v, budget, _, _, _, _, h, hm => place_matches v budget h hm
  | .uninitialized, _, _, _, _, _, h, _ => by cases h

theorem placeAttrs_matches : (attrs : List (Bytes × Value)) → (budget : Nat) →
    {leaves : List Leaf} → {st : Building} → {p : Payloads} → {pending : List Nat} →
    (writeAttributes budget attrs).error = none → Matches leaves st p pending →
    Matches (leaves ++ attrsLeaves attrs) (placeAttrs attrs st).2
      (p.append (writeAttributes budget attrs).deferred) pending
  | [], _, _, _, _, _, _, hm => by
      simpa [attrsLeaves,placeAttrs,writeAttributes] using hm
  | (name,v) :: attrs, budget, leaves, st, p, pending, h, hm => by
      simp only [writeAttributes] at h ⊢
      obtain ⟨hname,htail⟩ := WriteRun.error_append_eq_none.mp h
      obtain ⟨hv,hattrs⟩ := WriteRun.error_append_eq_none.mp htail
      have ih := placeAttrs_matches attrs budget hattrs (place_matches v budget hv hm)
      rw [deferred_append_ok hname,deferred_append_ok hv,writeAttributeName,
        writeText_deferred,Payloads.empty_append,← Payloads.append_assoc]
      simpa [attrsLeaves,placeAttrs] using ih

theorem placeValues_matches : (values : List Value) → (budget : Nat) →
    {leaves : List Leaf} → {st : Building} → {p : Payloads} → {pending : List Nat} →
    (writeValues budget values).error = none → Matches leaves st p pending →
    Matches (leaves ++ valuesLeaves values) (placeValues values st).2
      (p.append (writeValues budget values).deferred) pending
  | [], _, _, _, _, _, _, hm => by
      simpa [valuesLeaves,placeValues,writeValues] using hm
  | v :: values, budget, leaves, st, p, pending, h, hm => by
      simp only [writeValues] at h ⊢
      obtain ⟨hv,hvalues⟩ := WriteRun.error_append_eq_none.mp h
      have ih := placeValues_matches values budget hvalues (place_matches v budget hv hm)
      rw [deferred_append_ok hv,← Payloads.append_assoc]
      simpa [valuesLeaves,placeValues] using ih
end

mutual
/-- Once every cell holds its own vector, the shell that was placed is the object. -/
theorem resolve_place : (v : Value) → (st : Building) → (leaves more : List Leaf) →
    st.cells.length = leaves.length →
    (place v st).1.resolve (leaves ++ (v.leaves ++ more)) = v.toObject ∧
      (place v st).2.cells.length = leaves.length+v.leaves.length
  | .nil, st, leaves, more, h => by simp [place,Shell.resolve,Value.toObject,Value.leaves,h]
  | .vector _ leaf attrs, st, leaves, more, h => by
      have ha := resolveAttrs_place attrs (st.allocate leaf.blank) (leaves ++ [leaf]) more
        (by simp [Building.allocate,h])
      have hl : leaves ++ [leaf] ++ (attrsLeaves attrs ++ more) =
          leaves ++ leaf :: (attrsLeaves attrs ++ more) := by simp
      rw [hl] at ha
      refine ⟨?_,?_⟩
      · simp [place,Shell.resolve,Value.toObject,Value.leaves,h,ha.1]
      · simp only [place,Building.cells_register,ha.2,Value.leaves,List.length_append,
          List.length_cons,List.length_nil]
        omega
  | .list values attrs, st, leaves, more, h => by
      have ha := resolveAttrs_place attrs st leaves (valuesLeaves values ++ more) h
      have hv := resolveValues_place values (placeAttrs attrs st).2
        (leaves ++ attrsLeaves attrs) more (by simp [ha.2])
      rw [List.append_assoc] at hv
      refine ⟨?_,?_⟩
      · simp [place,Shell.resolve,Value.toObject,Value.leaves,ha.1,hv.1]
      · simp only [place,hv.2,Value.leaves,List.length_append]
        omega
  | .writable v, st, leaves, more, h => resolve_place v st leaves more h
  | .uninitialized, st, leaves, more, h => by
      simp [place,Shell.resolve,Value.toObject,Value.leaves,h]

theorem resolveAttrs_place : (attrs : List (Bytes × Value)) → (st : Building) →
    (leaves more : List Leaf) → st.cells.length = leaves.length →
    resolveAttrs (leaves ++ (attrsLeaves attrs ++ more)) (placeAttrs attrs st).1 =
        attrsToObjects attrs ∧
      (placeAttrs attrs st).2.cells.length = leaves.length+(attrsLeaves attrs).length
  | [], st, leaves, more, h => by simp [placeAttrs,resolveAttrs,attrsToObjects,attrsLeaves,h]
  | (name,v) :: attrs, st, leaves, more, h => by
      have hv := resolve_place v st leaves (attrsLeaves attrs ++ more) h
      have ha := resolveAttrs_place attrs (place v st).2 (leaves ++ v.leaves) more
        (by simp [hv.2])
      rw [List.append_assoc] at ha
      refine ⟨?_,?_⟩
      · simp [placeAttrs,resolveAttrs,attrsToObjects,attrsLeaves,hv.1,ha.1]
      · simp only [placeAttrs,ha.2,attrsLeaves,List.length_append]
        omega

theorem resolveValues_place : (values : List Value) → (st : Building) →
    (leaves more : List Leaf) → st.cells.length = leaves.length →
    resolveValues (leaves ++ (valuesLeaves values ++ more)) (placeValues values st).1 =
        valuesToObjects values ∧
      (placeValues values st).2.cells.length = leaves.length+(valuesLeaves values).length
  | [], st, leaves, more, h => by
      simp [placeValues,resolveValues,valuesToObjects,valuesLeaves,h]
  | v :: values, st, leaves, more, h => by
      have hv := resolve_place v st leaves (valuesLeaves values ++ more) h
      have hs := resolveValues_place values (place v st).2 (leaves ++ v.leaves) more
        (by simp [hv.2])
      rw [List.append_assoc] at hs
      refine ⟨?_,?_⟩
      · simp [placeValues,resolveValues,valuesToObjects,valuesLeaves,hv.1,hs.1]
      · simp only [placeValues,hs.2,valuesLeaves,List.length_append]
        omega
end

def Leaf.bytes : Leaf → Bytes
  | .logical xs | .integer xs => pack int32Bytes xs
  | .real xs => pack doubleBytes xs
  | .complex xs => pack complexBytes xs
  | .string _ => []
  | .raw xs => pack byteBytes xs

theorem Leaf.length_bytes {leaf : Leaf} : leaf.bytes.length = leaf.byteSize := by
  cases leaf with
  | logical xs | integer xs => exact length_pack length_int32Bytes xs
  | real xs => exact length_pack length_doubleBytes xs
  | complex xs => exact length_pack length_complexBytes xs
  | string xs => rfl
  | raw xs => simpa [Leaf.bytes,Leaf.byteSize] using length_pack length_byteBytes xs

@[simp] theorem Leaf.byteSize_blank (leaf : Leaf) : leaf.blank.byteSize = leaf.byteSize := by
  cases leaf <;> simp [Leaf.blank,Leaf.ofSize,Leaf.size,Leaf.byteSize,logicalOfSize,
    integerOfSize,realOfSize,complexOfSize,stringOfSize,rawOfSize]

theorem Leaf.fill_bytes {leaf : Leaf} (h : leaf.group ≠ .string) :
    leaf.fill leaf.bytes = leaf := by
  cases leaf with
  | logical xs => simp [Leaf.fill,Leaf.bytes,unpack_pack length_int32Bytes int32OfBytes_bytes]
  | integer xs => simp [Leaf.fill,Leaf.bytes,unpack_pack length_int32Bytes int32OfBytes_bytes]
  | real xs => simp [Leaf.fill,Leaf.bytes,unpack_pack length_doubleBytes doubleOfBytes_bytes]
  | complex xs =>
    simp [Leaf.fill,Leaf.bytes,unpack_pack length_complexBytes complexOfBytes_bytes]
  | string xs => exact absurd rfl h
  | raw xs => simp [Leaf.fill,Leaf.bytes,unpack_pack length_byteBytes byteOfBytes_bytes]

theorem Leaf.fill_blank (leaf : Leaf) (bs : Bytes) (h : leaf.group ≠ .string) :
    leaf.blank.fill bs = leaf.fill bs := by
  cases leaf with
  | string xs => exact absurd rfl h
  | _ => simp [Leaf.blank,Leaf.ofSize,Leaf.size,Leaf.fill,logicalOfSize,integerOfSize,
      realOfSize,complexOfSize,rawOfSize]

theorem writeEach_pushData {α : Type} (put : α → Bytes) (xs : List α) :
    Emits (writeEach (fun x => pushData (put x)) xs) (pack put xs) := by
  induction xs with
  | nil => exact emits_nothing
  | cons x xs ih =>
    rw [writeEach,pack_cons]
    exact (emits_pushData (put x)).append ih

theorem emitArray_emits {α : Type} (put : α → Bytes) (access : Access) (xs : List α) :
    Emits (emitArray put access xs) (pack put xs) := by
  cases access with
  | elementwise => exact writeEach_pushData put xs
  | direct =>
    rw [emitArray,writeArrayData]
    by_cases h : xs.length > 0
    · rw [if_pos h]
      exact emits_pushData _
    · have hn : xs = [] := List.eq_nil_of_length_eq_zero (by omega)
      subst hn
      rw [if_neg h]
      exact emits_nothing

theorem emitPayload_array {d : Deferred} (h : d.leaf.group ≠ .string) :
    Emits (emitPayload d) d.leaf.bytes := by
  obtain ⟨access,leaf⟩ := d
  cases leaf with
  | string records => exact absurd rfl h
  | _ => exact emitArray_emits _ access _

theorem readStringPayloads_na (n : Nat) (rest : Bytes) :
    (readStringPayloads (n+1)).run channel (stringHeaderNA :: rest) =
      (do
        let records ← readStringPayloads n
        pure (none :: records) : Reader _).run channel rest := by
  rw [readStringPayloads,run_bind_ok (readStringHeader_na rest),if_pos rfl]

theorem readStringPayloads_text {s bs : Bytes} (hs : s.length ≤ maxRCompatibleStringLength)
    (hr : ∀ rest, readStringHeader.run channel (bs ++ rest) = .ok (s.length,rest))
    (n : Nat) (rest : Bytes) :
    (readStringPayloads (n+1)).run channel (bs ++ s ++ rest) =
      (do
        let records ← readStringPayloads n
        pure (some s :: records) : Reader _).run channel rest := by
  have hna : s.length ≠ naStringLength := by
    simp only [maxRCompatibleStringLength] at hs
    simp only [naStringLength]
    omega
  rw [readStringPayloads,List.append_assoc,run_bind_ok (hr _),if_neg hna]
  by_cases hz : s.length = 0
  · have hnil : s = [] := List.eq_nil_of_length_eq_zero hz
    subst hnil
    rw [if_pos hz]
    rfl
  · rw [if_neg hz,checkedRCompatibleStringSize,if_neg (by omega),
      run_bind_ok (run_pure _ _ _),run_bind_ok (run_getData rfl rest)]

theorem readStringPayloads_written (records : List (Option Bytes)) (rest : Bytes)
    (h : (writeEach writeStringValue records).error = none) :
    (readStringPayloads records.length).run channel
        (pushedBytes (writeEach writeStringValue records).pushed ++ rest) =
      .ok (records,rest) := by
  induction records with
  | nil => rfl
  | cons r records ih =>
    rw [writeEach] at h ⊢
    obtain ⟨hr,ht⟩ := WriteRun.error_append_eq_none.mp h
    rw [pushedBytes_append_ok hr,List.append_assoc,List.length_cons]
    cases r with
    | none =>
      have hb : pushedBytes (writeStringValue none).pushed = [stringHeaderNA] := rfl
      rw [hb,List.singleton_append,readStringPayloads_na,run_bind_ok (ih ht)]
      rfl
    | some s =>
      have hs := writeText_error hr
      obtain ⟨bs,he,hread⟩ := writeText_emits hs
      have hb : pushedBytes (writeStringValue (some s)).pushed = bs ++ s := he.2.1
      rw [hb,readStringPayloads_text hs hread,run_bind_ok (ih ht)]
      rfl

theorem readStringPayloads_cut (records : List (Option Bytes)) (e : String)
    (h : (writeEach writeStringValue records).error = some e) :
    Incomplete (readStringPayloads records.length)
      (pushedBytes (writeEach writeStringValue records).pushed) := by
  induction records with
  | nil => cases h
  | cons r records ih =>
    rw [writeEach] at h ⊢
    rw [List.length_cons]
    rcases WriteRun.error_append h with ⟨hcut,hr⟩ | ⟨hr,ht⟩
    · cases r with
      | none => cases hr
      | some s =>
        rw [hcut,writeStringValue,writeText_pushed hr,readStringPayloads]
        exact Incomplete.bind ⟨_,readStringHeader_empty⟩ _
    rw [pushedBytes_append_ok hr]
    cases r with
    | none =>
      have hb : pushedBytes (writeStringValue none).pushed = [stringHeaderNA] := rfl
      rw [hb,List.singleton_append,Incomplete,readStringPayloads_na]
      exact (ih ht).bind _
    | some s =>
      have hs := writeText_error hr
      obtain ⟨bs,he,hread⟩ := writeText_emits hs
      have hb : pushedBytes (writeStringValue (some s)).pushed = bs ++ s := he.2.1
      rw [hb,Incomplete,readStringPayloads_text hs hread]
      exact (ih ht).bind _

end QData
