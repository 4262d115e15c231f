import QData.PayloadPass
/-! How many calls on the block writer a value takes when nothing stops its writing. -/
set_option autoImplicit false

namespace QData
open Words

def lengthPushes (length : Nat) : Nat := if length < max5BitLength then 1 else 2

def attrHeaderPushes (attrLength : Nat) : Nat :=
  if attrLength > 0 then lengthPushes attrLength else 0

def textPushes (length : Nat) : Nat :=
  (if length < maxString8BitLength then 1 else 2)+if length > 0 then 1 else 0

def recordPushes : Option Bytes → Nat
  | none => 1
  | some s => textPushes s.length

def Leaf.headerPushes : Leaf → Nat
  | .complex _ | .raw _ => 2
  | leaf => lengthPushes leaf.size

/-- Contiguous elements go in one call. -/
def Leaf.payloadPushes (access : Access) : Leaf → Nat
  | .string records => (records.map recordPushes).sum
  | leaf =>
      match access with
      | .direct => if leaf.size > 0 then 1 else 0
      | .elementwise => leaf.size

mutual
/-- The calls for a value, from its first header to the last of its payloads. -/
def Value.pushes : Value → Nat
  | .nil => 1
  | .vector access leaf attrs =>
      attrHeaderPushes attrs.length+leaf.headerPushes+
        (attrsPushes attrs+leaf.payloadPushes access)
  | .list values attrs =>
      attrHeaderPushes attrs.length+lengthPushes values.length+
        (attrsPushes attrs+valuesPushes values)
  | .writable v => v.pushes
  | .uninitialized => 0

def attrsPushes : List (Bytes × Value) → Nat
  | [] => 0
  | (name,v) :: rest => textPushes name.length+(v.pushes+attrsPushes rest)

def valuesPushes : List Value → Nat
  | [] => 0
  | v :: rest => v.pushes+valuesPushes rest
end

def groupPushes (payloads : List Deferred) : Nat :=
  (payloads.map fun d => d.leaf.payloadPushes d.access).sum

def Payloads.pushes (p : Payloads) : Nat :=
  groupPushes p.string+(groupPushes p.complex+(groupPushes p.real+
    (groupPushes p.integer+groupPushes p.raw)))

theorem Payloads.pushes_append (p q : Payloads) : (p.append q).pushes = p.pushes+q.pushes := by
  simp only [pushes,append,groupPushes,List.map_append,List.sum_append]
  omega

/-- A stretch of writing that comes to its end has made `n` calls or put them off. -/
def WriteRun.Pushes (r : WriteRun) (n : Nat) : Prop :=
  r.error = none → r.pushed.length+r.deferred.pushes = n

namespace WriteRun

theorem Pushes.append {a b : WriteRun} {m n : Nat} (ha : a.Pushes m) (hb : b.Pushes n) :
    (a ++ b).Pushes (m+n) := by
  intro h
  obtain ⟨hea,heb⟩ := error_append_eq_none.mp h
  have hm := ha hea
  have hn := hb heb
  rw [append_ok hea,Payloads.pushes_append,List.length_append]
  omega

theorem Pushes.after {a b : WriteRun} {n : Nat} (ha : a.Pushes 0) (hb : b.Pushes n) :
    (a ++ b).Pushes n := by
  have h := ha.append hb
  rwa [Nat.zero_add] at h

theorem Pushes.check (p : Prop) [Decidable p] (msg : String) :
    (if p then failWith msg else {}).Pushes 0 := by
  split
  · exact nofun
  · exact fun _ => rfl

theorem Pushes.push (op : PushOp) : ({ pushed := [op] } : WriteRun).Pushes 1 := fun _ => rfl

theorem Pushes.header (b : UInt8) (bs : Bytes) : (pushPod [b] ++ pushPodContiguous bs).Pushes 2 :=
  (Pushes.push _).append (Pushes.push _)

end WriteRun

open WriteRun

theorem pushPodIf_pushes (bs : Bytes) (contiguous : Bool) : (pushPodIf bs contiguous).Pushes 1 := by
  cases contiguous <;> exact Pushes.push _

theorem writeAttrHeader_pushes (length : Nat) :
    (writeAttrHeader length).Pushes (lengthPushes length) := by
  unfold writeAttrHeader lengthPushes
  by_cases h : length < max5BitLength
  · rw [if_pos h,if_pos h]
    exact Pushes.push _
  · rw [if_neg h,if_neg h]
    split <;> exact Pushes.header _ _

theorem writeLengthHeader32_pushes (h32 h64 : UInt8) (length : Nat) (hasAttrs : Bool) :
    (writeLengthHeader32 h32 h64 length hasAttrs).Pushes 2 := by
  unfold writeLengthHeader32
  split <;> exact (pushPodIf_pushes _ _).append (Pushes.push _)

theorem writeLengthHeader5_pushes (h5 h8 h16 h32 h64 : UInt8) (length : Nat) (hasAttrs : Bool) :
    (writeLengthHeader5 h5 h8 h16 h32 h64 length hasAttrs).Pushes (lengthPushes length) := by
  unfold writeLengthHeader5 lengthPushes
  by_cases h : length < max5BitLength
  · rw [if_pos h,if_pos h]
    exact pushPodIf_pushes _ _
  · rw [if_neg h,if_neg h]
    split
    · exact (pushPodIf_pushes _ _).append (Pushes.push _)
    · split
      · exact (pushPodIf_pushes _ _).append (Pushes.push _)
      · exact writeLengthHeader32_pushes _ _ _ _

theorem writeHeader_pushes {body : Bool → WriteRun} {n : Nat}
    (h : ∀ hasAttrs, (body hasAttrs).Pushes n) (attrLength : Nat) :
    (writeHeader body attrLength).Pushes (attrHeaderPushes attrLength+n) := by
  unfold writeHeader attrHeaderPushes
  split
  · exact (writeAttrHeader_pushes attrLength).append (h true)
  · rw [Nat.zero_add]
    exact h false

theorem beginVector_pushes {what : String} {header : Nat → Nat → WriteRun} {size attrCount n : Nat}
    (h : (header size attrCount).Pushes n) :
    (beginVector what header size attrCount).Pushes n :=
  (Pushes.check _ _).after ((Pushes.check _ _).after h)

theorem beginLeafVector_pushes (leaf : Leaf) (attrCount : Nat) :
    (beginLeafVector leaf attrCount).Pushes (attrHeaderPushes attrCount+leaf.headerPushes) := by
  cases leaf with
  | complex xs =>
    exact beginVector_pushes (writeHeader_pushes (writeLengthHeader32_pushes _ _ _) _)
  | raw xs => exact beginVector_pushes (writeHeader_pushes (writeLengthHeader32_pushes _ _ _) _)
  | _ => exact beginVector_pushes (writeHeader_pushes (writeLengthHeader5_pushes _ _ _ _ _ _) _)

theorem beginListVector_pushes (size attrCount : Nat) :
    (beginListVector size attrCount).Pushes (attrHeaderPushes attrCount+lengthPushes size) :=
  beginVector_pushes (writeHeader_pushes (writeLengthHeader5_pushes _ _ _ _ _ _) _)

theorem writeText_pushes (s : Bytes) : (writeText s).Pushes (textPushes s.length) := by
  have hheader : (writeStringHeader s.length).Pushes
      (if s.length < maxString8BitLength then 1 else 2) := by
    unfold writeStringHeader
    split
    · exact Pushes.push _
    · split <;> exact Pushes.header _ _
  have hdata : (if s.length > 0 then pushData s else {}).Pushes
      (if s.length > 0 then 1 else 0) := by
    split
    · exact Pushes.push _
    · exact fun _ => rfl
  exact (Pushes.check _ _).after (hheader.append hdata)

theorem Leaf.payloadPushes_empty {leaf : Leaf} (h : leaf.size = 0) (access : Access) :
    leaf.payloadPushes access = 0 := by
  cases leaf with
  | string records => rw [List.length_eq_zero_iff.mp h,payloadPushes]; rfl
  | _ => cases access <;> simp [payloadPushes,h]

theorem deferPayload_pushes (d : Deferred) :
    (deferPayload d).Pushes (d.leaf.payloadPushes d.access) := by
  unfold deferPayload
  split
  · split <;> exact fun _ => by simp [Payloads.pushes,groupPushes]
  · next hsize =>
    rw [Leaf.payloadPushes_empty (Nat.eq_zero_of_not_pos hsize)]
    exact fun _ => rfl

mutual
theorem writeObject_pushes : (v : Value) → (budget : Nat) → (writeObject budget v).Pushes v.pushes
  | .nil, _ => (Pushes.check _ _).after (Pushes.push _)
  | .vector access leaf attrs, budget =>
      (Pushes.check _ _).after ((beginLeafVector_pushes leaf _).append
        ((writeAttributes_pushes attrs (budget-1)).append (deferPayload_pushes ⟨access,leaf⟩)))
  | .list values attrs, budget =>
      (Pushes.check _ _).after ((beginListVector_pushes _ _).append
        ((writeAttributes_pushes attrs (budget-1)).append (writeValues_pushes values (budget-1))))
  | .writable v, budget => writeObject_pushes v budget
  | .uninitialized, _ => nofun

theorem writeAttributes_pushes : (attrs : List (Bytes × Value)) → (budget : Nat) →
    (writeAttributes budget attrs).Pushes (attrsPushes attrs)
  | [], _ => fun _ => rfl
  | (name,v) :: rest, budget =>
      (writeText_pushes name).append ((writeObject_pushes v budget).append
        (writeAttributes_pushes rest budget))

theorem writeValues_pushes : (values : List Value) → (budget : Nat) →
    (writeValues budget values).Pushes (valuesPushes values)
  | [], _ => fun _ => rfl
  | v :: rest, budget => (writeObject_pushes v budget).append (writeValues_pushes rest budget)
end

theorem writeEach_pushes {α : Type} {write : α → WriteRun} {pushes : α → Nat}
    (h : ∀ x, (write x).Pushes (pushes x)) (xs : List α) :
    (writeEach write xs).Pushes (xs.map pushes).sum := by
  induction xs with
  | nil => exact fun _ => rfl
  | cons x xs ih =>
    rw [List.map_cons,List.sum_cons]
    exact (h x).append ih

theorem emitArray_pushes {α : Type} (put : α → Bytes) (access : Access) (xs : List α) :
    (emitArray put access xs).Pushes
      (match access with
        | .direct => if xs.length > 0 then 1 else 0
        | .elementwise => xs.length) := by
  cases access with
  | direct =>
    simp only [emitArray,writeArrayData]
    split
    · exact Pushes.push _
    · exact fun _ => rfl
  | elementwise =>
    have h : (emitArray put .elementwise xs).Pushes (xs.map fun _ => 1).sum :=
      writeEach_pushes (fun _ => Pushes.push _) xs
    rwa [List.map_const',List.sum_replicate_nat,Nat.mul_one] at h

theorem emitPayload_pushes (d : Deferred) :
    (emitPayload d).Pushes (d.leaf.payloadPushes d.access) := by
  obtain ⟨access,leaf⟩ := d
  cases leaf with
  | string records =>
    refine writeEach_pushes (fun r => ?_) records
    cases r with
    | none => exact Pushes.push _
    | some s => exact writeText_pushes s
  | _ => exact emitArray_pushes _ _ _

theorem flushPayloads_pushes (p : Payloads) : (flushPayloads p).Pushes p.pushes := by
  have h : ∀ payloads, (flushPayloadGroup payloads).Pushes (groupPushes payloads) :=
    writeEach_pushes emitPayload_pushes
  exact (h _).append ((h _).append ((h _).append ((h _).append (h _))))
/-! Payloads are written when all are put off, and put off nothing. -/

theorem WriteRun.append_deferred {a b : WriteRun} (ha : a.deferred = {}) (hb : b.deferred = {}) :
    (a ++ b).deferred = {} := by
  cases h : a.error with
  | some e => rw [append_failed h,ha]
  | none => rw [append_ok h,ha,hb,Payloads.append_empty]

theorem writeEach_deferred {α : Type} {write : α → WriteRun} (h : ∀ x, (write x).deferred = {})
    (xs : List α) : (writeEach write xs).deferred = {} := by
  induction xs with
  | nil => rfl
  | cons x xs ih => exact append_deferred (h x) ih

theorem emitArray_deferred {α : Type} (put : α → Bytes) (access : Access) (xs : List α) :
    (emitArray put access xs).deferred = {} := by
  cases access with
  | direct =>
    simp only [emitArray,writeArrayData]
    split <;> rfl
  | elementwise => exact writeEach_deferred (fun _ => rfl) xs

theorem emitPayload_deferred (d : Deferred) : (emitPayload d).deferred = {} := by
  obtain ⟨access,leaf⟩ := d
  cases leaf with
  | string records =>
    refine writeEach_deferred (fun r => ?_) records
    cases r with
    | none => rfl
    | some s => exact writeText_deferred s
  | _ => exact emitArray_deferred _ _ _

theorem flushPayloads_deferred (p : Payloads) : (flushPayloads p).deferred = {} := by
  have h : ∀ payloads, (flushPayloadGroup payloads).deferred = {} :=
    writeEach_deferred emitPayload_deferred
  exact append_deferred (h _) (append_deferred (h _)
    (append_deferred (h _) (append_deferred (h _) (h _))))

theorem streamWrite_pushes {maxDepth : Nat} {v : Value}
    (h : (streamWrite maxDepth v).error = none) :
    (streamWrite maxDepth v).pushed.length = v.pushes := by
  have hrest : (writeObject maxDepth v ++ flushPayloads (writeObject maxDepth v).deferred).error =
      none := (error_append_eq_none.mp h).2
  obtain ⟨hobject,hflush⟩ := error_append_eq_none.mp hrest
  have hpushed := writeObject_pushes v maxDepth hobject
  have hlater := flushPayloads_pushes _ hflush
  rw [flushPayloads_deferred] at hlater
  have hcheck : (checkedMaxNestingDepth maxDepth).pushed = [] := by
    unfold checkedMaxNestingDepth
    split <;> rfl
  have hnone : ({} : Payloads).pushes = 0 := rfl
  rw [streamWrite,append_ok (error_append_eq_none.mp h).1,append_ok hobject]
  simp only [hcheck,List.nil_append,List.length_append]
  omega

end QData
