import QData.HeaderCodec
/-! The header pass of the reader undoes the header pass of the writer: a complete one
builds the object's shell and leaves what follows, one cut short by an exception is
never complete for the reader. -/
set_option autoImplicit false

namespace QData
open Words Requests

theorem WriteRun.empty_append (r : WriteRun) : ({} : WriteRun) ++ r = r := by
  rw [WriteRun.append_ok rfl]
  rfl

theorem pushedBytes_append_ok {a b : WriteRun} (h : a.error = none) :
    pushedBytes (a ++ b).pushed = pushedBytes a.pushed ++ pushedBytes b.pushed := by
  simp [WriteRun.append_ok h]

theorem deferred_append_ok {a b : WriteRun} (h : a.error = none) :
    (a ++ b).deferred = a.deferred.append b.deferred := by
  simp [WriteRun.append_ok h]

theorem enterObjectScope_append {budget : Nat} {r : WriteRun}
    (h : (enterObjectScope budget ++ r).error = none) :
    budget ≠ 0 ∧ enterObjectScope budget ++ r = r := by
  by_cases hb : budget = 0
  · rw [enterObjectScope,if_pos hb,WriteRun.append_failed rfl] at h
    cases h
  · exact ⟨hb,by rw [enterObjectScope,if_neg hb,WriteRun.empty_append]⟩

theorem writeText_emits {s : Bytes} (h : s.length ≤ maxRCompatibleStringLength) :
    ∃ bs, Emits (writeText s) (bs ++ s) ∧
      ∀ rest, readStringHeader.run channel (bs ++ rest) = .ok (s.length,rest) := by
  have hs : s.length < 2 ^ 32 := by simp only [maxRCompatibleStringLength] at h; omega
  obtain ⟨bs,he,hr⟩ := writeStringHeader_reads hs
  refine ⟨bs,?_,hr⟩
  rw [writeText,checkedStringLength,if_neg (by omega),WriteRun.empty_append]
  by_cases hz : s.length > 0
  · rw [if_pos hz]
    exact he.append (emits_pushData s)
  · have hn : s = [] := List.eq_nil_of_length_eq_zero (by omega)
    subst hn
    rw [if_neg hz]
    exact he.append emits_nothing

theorem writeText_rejects {s : Bytes} (h : ¬ s.length ≤ maxRCompatibleStringLength) :
    writeText s =
      failWith "string length exceeds qdata's R-compatible string length limit" := by
  rw [writeText,checkedStringLength,if_pos (by omega),WriteRun.append_failed rfl]

theorem writeText_pushed {s : Bytes} {e : String} (h : (writeText s).error = some e) :
    (writeText s).pushed = [] := by
  by_cases hs : s.length ≤ maxRCompatibleStringLength
  · obtain ⟨_,he,_⟩ := writeText_emits hs
    rw [he.1] at h
    cases h
  · rw [writeText_rejects hs]
    rfl

theorem writeText_error {s : Bytes} (h : (writeText s).error = none) :
    s.length ≤ maxRCompatibleStringLength := by
  by_cases hs : s.length ≤ maxRCompatibleStringLength
  · exact hs
  · rw [writeText_rejects hs] at h
    cases h

theorem beginLeafVector_error {leaf : Leaf} {attrCount : Nat}
    (h : (beginLeafVector leaf attrCount).error = none) :
    leaf.size ≤ maxRCompatibleVectorLength ∧ attrCount ≤ maxRCompatibleAttrCount := by
  by_contra hl
  obtain ⟨e,he⟩ := beginLeafVector_rejects hl
  rw [he] at h
  cases h

theorem beginListVector_error {size attrCount : Nat}
    (h : (beginListVector size attrCount).error = none) :
    size ≤ maxRCompatibleVectorLength ∧ attrCount ≤ maxRCompatibleAttrCount := by
  by_contra hl
  obtain ⟨e,he⟩ := beginVector_rejects hl
  rw [beginListVector,he] at h
  cases h

theorem beginLeafVector_pushed {leaf : Leaf} {attrCount : Nat} {e : String}
    (h : (beginLeafVector leaf attrCount).error = some e) :
    (beginLeafVector leaf attrCount).pushed = [] := by
  by_cases hl : leaf.size ≤ maxRCompatibleVectorLength ∧ attrCount ≤ maxRCompatibleAttrCount
  · obtain ⟨_,he,_⟩ := beginLeafVector_reads hl.1 hl.2
    rw [he.1] at h
    cases h
  · obtain ⟨e',he⟩ := beginLeafVector_rejects hl
    rw [he]
    rfl

theorem beginListVector_pushed {size attrCount : Nat} {e : String}
    (h : (beginListVector size attrCount).error = some e) :
    (beginListVector size attrCount).pushed = [] := by
  by_cases hl : size ≤ maxRCompatibleVectorLength ∧ attrCount ≤ maxRCompatibleAttrCount
  · obtain ⟨_,he,_⟩ := beginListVector_reads hl.1 hl.2
    rw [he.1] at h
    cases h
  · obtain ⟨e',he⟩ := beginVector_rejects hl
    rw [beginListVector,he]
    rfl

@[simp] theorem deferPayload_error (d : Deferred) : (deferPayload d).error = none := by
  unfold deferPayload
  split
  · split <;> rfl
  · rfl

@[simp] theorem deferPayload_pushed (d : Deferred) : (deferPayload d).pushed = [] := by
  unfold deferPayload
  split
  · split <;> rfl
  · rfl

def Leaf.ofSize : Leaf → Nat → Leaf
  | .logical _ => logicalOfSize
  | .integer _ => integerOfSize
  | .real _ => realOfSize
  | .complex _ => complexOfSize
  | .string _ => stringOfSize
  | .raw _ => rawOfSize

def Leaf.blank (leaf : Leaf) : Leaf := leaf.ofSize leaf.size

@[simp] theorem Leaf.size_blank (leaf : Leaf) : leaf.blank.size = leaf.size := by
  cases leaf <;> simp [Leaf.blank,Leaf.ofSize,Leaf.size,logicalOfSize,integerOfSize,
    realOfSize,complexOfSize,stringOfSize,rawOfSize]

mutual
/-- What the reader's header pass builds for a value: vectors are placed in the order
their headers are read, and registered after their own attributes. -/
def place : Value → Building → Shell × Building
  | .nil, st => (.nil,st)
  | .vector _ leaf attrs, st =>
      (.vector st.cells.length (placeAttrs attrs (st.allocate leaf.blank)).1,
        (placeAttrs attrs (st.allocate leaf.blank)).2.register st.cells.length leaf.blank)
  | .list values attrs, st =>
      (.list (placeValues values (placeAttrs attrs st).2).1 (placeAttrs attrs st).1,
        (placeValues values (placeAttrs attrs st).2).2)
  | .writable v, st => place v st
  | .uninitialized, st => (.nil,st)

def placeAttrs : List (Bytes × Value) → Building → List (Bytes × Shell) × Building
  | [], st => ([],st)
  | (name,v) :: rest, st =>
      ((name,(place v st).1) :: (placeAttrs rest (place v st).2).1,
        (placeAttrs rest (place v st).2).2)

def placeValues : List Value → Building → List Shell × Building
  | [], st => ([],st)
  | v :: rest, st =>
      ((place v st).1 :: (placeValues rest (place v st).2).1,
        (placeValues rest (place v st).2).2)
end

def depthHalt : Halt ReadError :=
  .error (.cleanup "qdata nesting depth exceeds configured max_depth")

theorem readAttributeLoop_cons (self : Building → Reader (Shell × Building)) {name bs : Bytes}
    (hn : name.length ≤ maxRCompatibleStringLength)
    (hr : ∀ rest, readStringHeader.run channel (bs ++ rest) = .ok (name.length,rest))
    (n : Nat) (st : Building) (rest : Bytes) :
    (readAttributeLoop self (n+1) st).run channel (bs ++ name ++ rest) =
      (do
        let (x,st) ← self st
        let (ys,st) ← readAttributeLoop self n st
        pure ((name,x) :: ys,st) : Reader _).run channel rest := by
  have hna : name.length ≠ naStringLength := by
    simp only [maxRCompatibleStringLength] at hn
    simp only [naStringLength]
    omega
  rw [readAttributeLoop,List.append_assoc,run_bind_ok (hr _),if_neg hna,
    checkedRCompatibleStringSize,if_neg (by omega),run_bind_ok (run_pure _ _ _)]
  by_cases hz : name.length > 0
  · rw [if_pos hz,run_bind_ok (run_getData rfl rest)]
  · have hnil : name = [] := List.eq_nil_of_length_eq_zero (by omega)
    subst hnil
    rw [if_neg hz,run_bind_ok (run_pure _ _ _)]
    rfl

theorem readAttributes_run (self : Building → Reader (Shell × Building)) {n : Nat}
    (hn : n ≤ maxRCompatibleAttrCount) (st : Building) (s : Bytes) :
    (readAttributes self n st).run channel s = (readAttributeLoop self n st).run channel s := by
  rw [readAttributes,checkedRCompatibleAttrCount,if_neg (by omega),
    run_bind_ok (run_pure _ _ _)]

theorem readInto_leaf {leaf : Leaf} {attrCount : Nat} {bs : Bytes}
    (hr : ReadsHeader leaf.type leaf.size attrCount bs)
    (hs : leaf.size ≤ maxRCompatibleVectorLength)
    (ha : attrCount ≤ maxRCompatibleAttrCount) (d : Nat) (st : Building) (rest : Bytes) :
    (readInto (d+1) st).run channel (bs ++ rest) =
      (do
        let (attrs,st') ← readAttributeLoop (readInto d) attrCount (st.allocate leaf.blank)
        pure (Shell.vector st.cells.length attrs,st'.register st.cells.length leaf.blank)
        : Reader _).run channel rest := by
  have hv : ∀ what : String,
      (readVector (readInto d) leaf.ofSize what leaf.size attrCount st).run channel rest =
        (do
          let (attrs,st') ← readAttributeLoop (readInto d) attrCount (st.allocate leaf.blank)
          pure (Shell.vector st.cells.length attrs,st'.register st.cells.length leaf.blank)
          : Reader _).run channel rest := by
    intro what
    rw [readVector,checkedRCompatibleVectorSize,if_neg (by omega),
      run_bind_ok (run_pure _ _ _),run_bind,readAttributes_run _ ha,run_bind]
    rfl
  rw [readInto,run_bind_ok (hr rest)]
  cases leaf <;> exact hv _

theorem readInto_list {size attrCount : Nat} {bs : Bytes}
    (hr : ReadsHeader .list size attrCount bs)
    (hs : size ≤ maxRCompatibleVectorLength)
    (ha : attrCount ≤ maxRCompatibleAttrCount) (d : Nat) (st : Building) (rest : Bytes) :
    (readInto (d+1) st).run channel (bs ++ rest) =
      (do
        let (attrs,st) ← readAttributeLoop (readInto d) attrCount st
        let (values,st) ← readValues (readInto d) size st
        pure (Shell.list values attrs,st) : Reader _).run channel rest := by
  rw [readInto,run_bind_ok (hr rest)]
  simp only [run_bind,readAttributes_run _ ha]
  cases (readAttributeLoop (readInto d) attrCount st).run channel rest with
  | error e => rfl
  | ok x => rw [checkedRCompatibleVectorSize,if_neg (by omega)]; rfl

theorem readInto_nil (d : Nat) (st : Building) (rest : Bytes) :
    (readInto (d+1) st).run channel (nilHeader :: rest) = .ok ((.nil,st),rest) := by
  have h : readObjectHeader.run channel (nilHeader :: rest) = .ok ((.nil,0,0),rest) := by
    rw [readObjectHeader,run_bind_ok (run_getPod_byte nilHeader rest)]
    rfl
  rw [readInto,run_bind_ok h]
  rfl

theorem readInto_exhausted (st : Building) (s : Bytes) :
    (readInto 0 st).run channel s = .error depthHalt := rfl

theorem readInto_empty (d : Nat) (st : Building) :
    ∃ e, (readInto d st).run channel [] = .error e := by
  cases d with
  | zero => exact ⟨depthHalt,rfl⟩
  | succ d => exact ⟨_,by rw [readInto,run_bind_error readObjectHeader_empty]⟩

theorem writeObject_vector_ok {budget : Nat} {access : Access} {leaf : Leaf}
    {attrs : List (Bytes × Value)}
    (h : (writeObject budget (.vector access leaf attrs)).error = none) :
    (beginLeafVector leaf attrs.length).error = none ∧
      (writeAttributes (budget-1) attrs).error = none ∧
      writeObject budget (.vector access leaf attrs) = beginLeafVector leaf attrs.length ++
        (writeAttributes (budget-1) attrs ++ deferPayload ⟨access,leaf⟩) := by
  rw [writeObject] at h ⊢
  obtain ⟨_,hb⟩ := enterObjectScope_append h
  rw [hb] at h ⊢
  obtain ⟨hbegin,htail⟩ := WriteRun.error_append_eq_none.mp h
  exact ⟨hbegin,(WriteRun.error_append_eq_none.mp htail).1,rfl⟩

theorem writeObject_list_ok {budget : Nat} {values : List Value} {attrs : List (Bytes × Value)}
    (h : (writeObject budget (.list values attrs)).error = none) :
    (beginListVector values.length attrs.length).error = none ∧
      (writeAttributes (budget-1) attrs).error = none ∧
      (writeValues (budget-1) values).error = none ∧
      writeObject budget (.list values attrs) = beginListVector values.length attrs.length ++
        (writeAttributes (budget-1) attrs ++ writeValues (budget-1) values) := by
  rw [writeObject] at h ⊢
  obtain ⟨_,hb⟩ := enterObjectScope_append h
  rw [hb] at h ⊢
  obtain ⟨hbegin,htail⟩ := WriteRun.error_append_eq_none.mp h
  obtain ⟨hattrs,hvalues⟩ := WriteRun.error_append_eq_none.mp htail
  exact ⟨hbegin,hattrs,hvalues,rfl⟩

mutual
/-- Over the header bytes of a value that was written, the reader builds its shell and
leaves what follows, unless its own depth limit is smaller than the value's depth. -/
theorem readInto_written : (v : Value) → (budget d : Nat) → (st : Building) → (rest : Bytes) →
    (writeObject budget v).error = none →
    (readInto d st).run channel (pushedBytes (writeObject budget v).pushed ++ rest) =
      if v.depth ≤ d then .ok (place v st,rest) else .error depthHalt
  | .nil, budget, d, st, rest, h => by
      simp only [writeObject] at h ⊢
      obtain ⟨_,hb⟩ := enterObjectScope_append h
      rw [hb]
      cases d with
      | zero => simp [Value.depth,readInto_exhausted]
      | succ d => simpa [PushOp.bytes,Value.depth,place] using readInto_nil d st rest
  | .vector access leaf attrs, budget, d, st, rest, h => by
      obtain ⟨hbegin,hattrs,hw⟩ := writeObject_vector_ok h
      rw [hw]
      obtain ⟨hs,ha⟩ := beginLeafVector_error hbegin
      obtain ⟨bs,he,hr⟩ := beginLeafVector_reads hs ha
      rw [pushedBytes_append_ok hbegin,pushedBytes_append_ok hattrs,he.2.1,deferPayload_pushed,
        pushedBytes_nil,List.append_nil,List.append_assoc]
      cases d with
      | zero => simp [Value.depth,readInto_exhausted]
      | succ d =>
        have ih := readAttributeLoop_written attrs (budget-1) d (st.allocate leaf.blank) rest hattrs
        rw [readInto_leaf hr hs ha,run_bind,ih]
        by_cases hd : attrsDepth attrs ≤ d
        · rw [if_pos hd,if_pos (by simp only [Value.depth]; omega)]
          rfl
        · rw [if_neg hd,if_neg (by simp only [Value.depth]; omega)]
  | .list values attrs, budget, d, st, rest, h => by
      obtain ⟨hbegin,hattrs,hvalues,hw⟩ := writeObject_list_ok h
      rw [hw]
      obtain ⟨hs,ha⟩ := beginListVector_error hbegin
      obtain ⟨bs,he,hr⟩ := beginListVector_reads hs ha
      rw [pushedBytes_append_ok hbegin,pushedBytes_append_ok hattrs,he.2.1,
        List.append_assoc,List.append_assoc]
      cases d with
      | zero => simp [Value.depth,readInto_exhausted]
      | succ d =>
        have iha := readAttributeLoop_written attrs (budget-1) d st
          (pushedBytes (writeValues (budget-1) values).pushed ++ rest) hattrs
        rw [readInto_list hr hs ha,run_bind,iha]
        by_cases hd : attrsDepth attrs ≤ d
        · have ihv := readValues_written values (budget-1) d (placeAttrs attrs st).2 rest hvalues
          rw [if_pos hd]
          simp only [run_bind,ihv]
          by_cases hv : valuesDepth values ≤ d
          · rw [if_pos hv,if_pos (by simp only [Value.depth]; omega)]
            rfl
          · rw [if_neg hv,if_neg (by simp only [Value.depth]; omega)]
        · rw [if_neg hd,if_neg (by simp only [Value.depth]; omega)]
  | .writable v, budget, d, st, rest, h => readInto_written v budget d st rest h
  | .uninitialized, _, _, _, _, h => by cases h

theorem readAttributeLoop_written : (attrs : List (Bytes × Value)) → (budget d : Nat) →
    (st : Building) → (rest : Bytes) → (writeAttributes budget attrs).error = none →
    (readAttributeLoop (readInto d) attrs.length st).run channel
        (pushedBytes (writeAttributes budget attrs).pushed ++ rest) =
      if attrsDepth attrs ≤ d then .ok (placeAttrs attrs st,rest) else .error depthHalt
  | [], _, d, st, rest, _ => by
      simp [attrsDepth,placeAttrs,writeAttributes,readAttributeLoop]
  | (name,v) :: attrs, budget, d, st, rest, h => by
      simp only [writeAttributes] at h ⊢
      obtain ⟨hname,htail⟩ := WriteRun.error_append_eq_none.mp h
      obtain ⟨hv,hattrs⟩ := WriteRun.error_append_eq_none.mp htail
      have hn := writeText_error hname
      obtain ⟨bs,he,hr⟩ := writeText_emits hn
      rw [pushedBytes_append_ok hname,pushedBytes_append_ok hv,writeAttributeName,he.2.1,
        List.append_assoc,List.append_assoc,← List.append_assoc bs,List.length_cons,
        readAttributeLoop_cons (readInto d) hn hr,List.append_assoc]
      have ihv := readInto_written v budget d st
        (pushedBytes (writeAttributes budget attrs).pushed ++ rest) hv
      rw [run_bind,ihv]
      by_cases hd : v.depth ≤ d
      · have iha := readAttributeLoop_written attrs budget d (place v st).2 rest hattrs
        rw [if_pos hd]
        simp only [run_bind,iha]
        by_cases ha : attrsDepth attrs ≤ d
        · rw [if_pos ha,if_pos (by simp only [attrsDepth]; omega)]
          rfl
        · rw [if_neg ha,if_neg (by simp only [attrsDepth]; omega)]
      · rw [if_neg hd,if_neg (by simp only [attrsDepth]; omega)]

theorem readValues_written : (values : List Value) → (budget d : Nat) →
    (st : Building) → (rest : Bytes) → (writeValues budget values).error = none →
    (readValues (readInto d) values.length st).run channel
        (pushedBytes (writeValues budget values).pushed ++ rest) =
      if valuesDepth values ≤ d then .ok (placeValues values st,rest) else .error depthHalt
  | [], _, d, st, rest, _ => by
      simp [valuesDepth,placeValues,writeValues,readValues]
  | v :: values, budget, d, st, rest, h => by
      simp only [writeValues] at h ⊢
      obtain ⟨hv,hvalues⟩ := WriteRun.error_append_eq_none.mp h
      rw [pushedBytes_append_ok hv,List.append_assoc,List.length_cons,readValues]
      have ihv := readInto_written v budget d st
        (pushedBytes (writeValues budget values).pushed ++ rest) hv
      rw [run_bind,ihv]
      by_cases hd : v.depth ≤ d
      · have ih := readValues_written values budget d (place v st).2 rest hvalues
        rw [if_pos hd]
        simp only [run_bind,ih]
        by_cases ha : valuesDepth values ≤ d
        · rw [if_pos ha,if_pos (by simp only [valuesDepth]; omega)]
          rfl
        · rw [if_neg ha,if_neg (by simp only [valuesDepth]; omega)]
      · rw [if_neg hd,if_neg (by simp only [valuesDepth]; omega)]
end

/-- A reader that cannot complete on these bytes. -/
def Incomplete {α : Type} (p : Reader α) (bs : Bytes) : Prop :=
  ∃ e, p.run channel bs = .error e

theorem Incomplete.bind {α β : Type} {p : Reader α} {bs : Bytes} (h : Incomplete p bs)
    (f : α → Reader β) : Incomplete (p >>= f) bs := by
  obtain ⟨e,he⟩ := h
  exact ⟨e,run_bind_error he⟩

theorem Incomplete.of_append {α : Type} {p : Reader α} {bs rest : Bytes}
    (h : Incomplete p (bs ++ rest)) : Incomplete p bs := by
  obtain ⟨e,he⟩ := h
  cases hp : p.run channel bs with
  | error e' => exact ⟨e',hp⟩
  | ok x => rw [run_channel_extend (a := x.1) (t := x.2) hp rest] at he; cases he

theorem WriteRun.error_append {a b : WriteRun} {e : String} (h : (a ++ b).error = some e) :
    (a ++ b = a ∧ a.error = some e) ∨ (a.error = none ∧ b.error = some e) := by
  cases ha : a.error with
  | none =>
    rw [WriteRun.append_ok ha] at h
    exact .inr ⟨rfl,h⟩
  | some e' =>
    rw [WriteRun.append_failed ha,ha] at h
    exact .inl ⟨WriteRun.append_failed ha,h⟩

theorem enterObjectScope_error {budget : Nat} {r : WriteRun} {e : String}
    (h : (enterObjectScope budget ++ r).error = some e) :
    (enterObjectScope budget ++ r).pushed = [] ∨
      (enterObjectScope budget ++ r = r ∧ r.error = some e) := by
  by_cases hb : budget = 0
  · refine .inl ?_
    rw [enterObjectScope,if_pos hb,WriteRun.append_failed rfl]
    rfl
  · have hr : enterObjectScope budget ++ r = r := by
      rw [enterObjectScope,if_neg hb,WriteRun.empty_append]
    exact .inr ⟨hr,by rw [← hr]; exact h⟩

mutual
/-- Over the header bytes of a value whose writing was cut short, no reader completes,
whatever its depth limit. -/
theorem readInto_cut : (v : Value) → (budget d : Nat) → (st : Building) → (e : String) →
    (writeObject budget v).error = some e →
    Incomplete (readInto d st) (pushedBytes (writeObject budget v).pushed)
  | .nil, budget, d, st, e, h => by
      simp only [writeObject] at h ⊢
      rcases enterObjectScope_error h with hp | ⟨_,hr⟩
      · rw [hp]
        exact readInto_empty d st
      · cases hr
  | .vector access leaf attrs, budget, d, st, e, h => by
      simp only [writeObject] at h ⊢
      rcases enterObjectScope_error h with hp | ⟨hb,hr⟩
      · rw [hp]
        exact readInto_empty d st
      rw [hb]
      rcases WriteRun.error_append hr with ⟨hcut,hbegin⟩ | ⟨hbegin,htail⟩
      · rw [hcut,beginLeafVector_pushed hbegin]
        exact readInto_empty d st
      obtain ⟨hs,ha⟩ := beginLeafVector_error hbegin
      obtain ⟨bs,he,hread⟩ := beginLeafVector_reads hs ha
      rw [pushedBytes_append_ok hbegin,he.2.1]
      rcases WriteRun.error_append htail with ⟨hcut,hattrs⟩ | ⟨_,hdefer⟩
      · rw [hcut]
        cases d with
        | zero => exact ⟨depthHalt,rfl⟩
        | succ d =>
          have ih := readAttributeLoop_cut attrs (budget-1) d (st.allocate leaf.blank) e hattrs
          obtain ⟨e',ih⟩ := ih.bind fun r =>
            pure (Shell.vector st.cells.length r.1,r.2.register st.cells.length leaf.blank)
          exact ⟨e',by rw [readInto_leaf hread hs ha]; exact ih⟩
      · rw [deferPayload_error] at hdefer
        cases hdefer
  | .list values attrs, budget, d, st, e, h => by
      simp only [writeObject] at h ⊢
      rcases enterObjectScope_error h with hp | ⟨hb,hr⟩
      · rw [hp]
        exact readInto_empty d st
      rw [hb]
      rcases WriteRun.error_append hr with ⟨hcut,hbegin⟩ | ⟨hbegin,htail⟩
      · rw [hcut,beginListVector_pushed hbegin]
        exact readInto_empty d st
      obtain ⟨hs,ha⟩ := beginListVector_error hbegin
      obtain ⟨bs,he,hread⟩ := beginListVector_reads hs ha
      rw [pushedBytes_append_ok hbegin,he.2.1]
      cases d with
      | zero => exact ⟨depthHalt,rfl⟩
      | succ d =>
        rw [Incomplete,readInto_list hread hs ha]
        rcases WriteRun.error_append htail with ⟨hcut,hattrs⟩ | ⟨hattrs,hvalues⟩
        · rw [hcut]
          exact (readAttributeLoop_cut attrs (budget-1) d st e hattrs).bind _
        · rw [pushedBytes_append_ok hattrs,run_bind,
            readAttributeLoop_written attrs (budget-1) d st _ hattrs]
          by_cases hd : attrsDepth attrs ≤ d
          · rw [if_pos hd]
            exact (readValues_cut values (budget-1) d (placeAttrs attrs st).2 e hvalues).bind _
          · rw [if_neg hd]
            exact ⟨depthHalt,rfl⟩
  | .writable v, budget, d, st, e, h => readInto_cut v budget d st e h
  | .uninitialized, _, d, st, _, _ => readInto_empty d st

theorem readAttributeLoop_cut : (attrs : List (Bytes × Value)) → (budget d : Nat) →
    (st : Building) → (e : String) → (writeAttributes budget attrs).error = some e →
    Incomplete (readAttributeLoop (readInto d) attrs.length st)
      (pushedBytes (writeAttributes budget attrs).pushed)
  | [], _, _, _, _, h => by cases h
  | (name,v) :: attrs, budget, d, st, e, h => by
      simp only [writeAttributes] at h ⊢
      rcases WriteRun.error_append h with ⟨hcut,hname⟩ | ⟨hname,htail⟩
      · rw [hcut,writeAttributeName,writeText_pushed hname,List.length_cons,readAttributeLoop]
        exact Incomplete.bind ⟨_,readStringHeader_empty⟩ _
      have hn := writeText_error hname
      obtain ⟨bs,he,hr⟩ := writeText_emits hn
      rw [pushedBytes_append_ok hname,writeAttributeName,he.2.1,List.length_cons,
        Incomplete,readAttributeLoop_cons (readInto d) hn hr]
      rcases WriteRun.error_append htail with ⟨hcut,hv⟩ | ⟨hv,hattrs⟩
      · rw [hcut]
        exact (readInto_cut v budget d st e hv).bind _
      · rw [pushedBytes_append_ok hv,run_bind,readInto_written v budget d st _ hv]
        by_cases hd : v.depth ≤ d
        · rw [if_pos hd]
          exact (readAttributeLoop_cut attrs budget d (place v st).2 e hattrs).bind _
        · rw [if_neg hd]
          exact ⟨depthHalt,rfl⟩

theorem readValues_cut : (values : List Value) → (budget d : Nat) → (st : Building) →
    (e : String) → (writeValues budget values).error = some e →
    Incomplete (readValues (readInto d) values.length st)
      (pushedBytes (writeValues budget values).pushed)
  | [], _, _, _, _, h => by cases h
  | v :: values, budget, d, st, e, h => by
      simp only [writeValues] at h ⊢
      rw [List.length_cons,readValues]
      rcases WriteRun.error_append h with ⟨hcut,hv⟩ | ⟨hv,hvalues⟩
      · rw [hcut]
        exact (readInto_cut v budget d st e hv).bind _
      · rw [pushedBytes_append_ok hv,Incomplete,run_bind,readInto_written v budget d st _ hv]
        by_cases hd : v.depth ≤ d
        · rw [if_pos hd]
          exact (readValues_cut values budget d (place v st).2 e hvalues).bind _
        · rw [if_neg hd]
          exact ⟨depthHalt,rfl⟩
end

end QData
