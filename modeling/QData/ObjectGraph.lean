import QData.PayloadPass
import Mathlib.Logic.Relation
/-! Writing from memory: `write_object` over objects at addresses, which may be shared,
borrowed, in a cycle, or made for one call only; and how deep its calls go. -/
set_option autoImplicit false

namespace QData
open Words

/-- Where an object lives: in storage that is there until the save is over, or in that of
a temporary, gone when the call the temporary was made for returns. -/
inductive Addr where
  | lasting : Nat → Addr
  | passing : Nat → Addr
  deriving DecidableEq, Repr

def Addr.Lasting : Addr → Prop
  | .lasting _ => True
  | .passing _ => False

instance (a : Addr) : Decidable a.Lasting :=
  match a with
  | .lasting _ => isTrue trivial
  | .passing _ => isFalse id

mutual
/-- What a trait's `get` or an iterator hands to `write_object`: a reference to an object
in memory, or a temporary, with all the objects it is made of and its own place. -/
inductive Given where
  | reference : Addr → Given
  | temporary : List (Nat × Cell) → Nat → Given

/-- An object in memory; the target of a `writable` is where its `ptr` points. -/
inductive Cell where
  | nil : Cell
  | vector : Access → Leaf → List (Bytes × Given) → Cell
  | list : List Given → List (Bytes × Given) → Cell
  | writable : Addr → Cell
  | uninitialized : Cell
end

abbrev Heap := Addr → Option Cell

def Heap.create (m : Heap) (objects : List (Nat × Cell)) : Heap
  | .lasting n => m (.lasting n)
  | .passing n => (objects.lookup n).or (m (.passing n))

def Given.addr : Given → Addr
  | .reference a => a
  | .temporary _ n => .passing n

/-- Memory while what was given is being written. Afterwards the temporary is destroyed
and memory is as it was. -/
def Heap.during (m : Heap) : Given → Heap
  | .reference _ => m
  | .temporary objects _ => m.create objects

/-- `deferred_payload`: a pointer, and the type its emit function was made for. -/
structure DeferredPayload where
  objectPtr : Addr
  access : Access
  type : Qstype
  deriving DecidableEq, Repr

structure PayloadQueues where
  string : List DeferredPayload := []
  complex : List DeferredPayload := []
  real : List DeferredPayload := []
  integer : List DeferredPayload := []
  raw : List DeferredPayload := []
  deriving DecidableEq, Repr

namespace PayloadQueues

def append (p q : PayloadQueues) : PayloadQueues :=
  ⟨p.string ++ q.string,p.complex ++ q.complex,p.real ++ q.real,
    p.integer ++ q.integer,p.raw ++ q.raw⟩

def queue (p : PayloadQueues) : Group → List DeferredPayload
  | .string => p.string
  | .complex => p.complex
  | .real => p.real
  | .integer => p.integer
  | .raw => p.raw

@[simp] theorem queue_empty (g : Group) : ({} : PayloadQueues).queue g = [] := by
  cases g <;> rfl

@[simp] theorem queue_append (p q : PayloadQueues) (g : Group) :
    (p.append q).queue g = p.queue g ++ q.queue g := by cases g <;> rfl

end PayloadQueues

/-- What ended a stretch of writing: an exception, an access to an object where there is
none, or more calls inside one another than there was room for. -/
inductive WriteEnd where
  | threw : String → WriteEnd
  | undefined : WriteEnd
  | overflow : WriteEnd
  deriving DecidableEq, Repr

/-- What a stretch of writing did, with payloads put off as pointers. -/
structure PointerRun where
  pushed : List PushOp := []
  deferred : PayloadQueues := {}
  ending : Option WriteEnd := none
  deriving DecidableEq, Repr

def PointerRun.andThen (a b : PointerRun) : PointerRun :=
  match a.ending with
  | some _ => a
  | none => ⟨a.pushed ++ b.pushed,a.deferred.append b.deferred,b.ending⟩

instance : Append PointerRun := ⟨PointerRun.andThen⟩

namespace PointerRun

theorem append_ended {a b : PointerRun} {e : WriteEnd} (h : a.ending = some e) : a ++ b = a := by
  change a.andThen b = a
  simp [andThen,h]

theorem append_ok {a b : PointerRun} (h : a.ending = none) :
    a ++ b = ⟨a.pushed ++ b.pushed,a.deferred.append b.deferred,b.ending⟩ := by
  change a.andThen b = _
  simp [andThen,h]

theorem ending_append (a b : PointerRun) : (a ++ b).ending = a.ending.or b.ending := by
  cases h : a.ending with
  | none => simp [append_ok h]
  | some e => simp [append_ended h,h]

theorem ending_append_eq_none {a b : PointerRun} :
    (a ++ b).ending = none ↔ a.ending = none ∧ b.ending = none := by
  rw [ending_append,Option.or_eq_none_iff]

end PointerRun

def WriteRun.bare (r : WriteRun) : PointerRun := ⟨r.pushed,{},r.error.map .threw⟩

section
variable (self : Heap → Nat → Addr → PointerRun)

def writeAttributesAt (m : Heap) (budget : Nat) : List (Bytes × Given) → PointerRun
  | [] => {}
  | (name,x) :: rest => (writeAttributeName name).bare ++
      (self (m.during x) budget x.addr ++ writeAttributesAt m budget rest)

def writeValuesAt (m : Heap) (budget : Nat) : List Given → PointerRun
  | [] => {}
  | x :: rest => self (m.during x) budget x.addr ++ writeValuesAt m budget rest

end

def deferPayloadAt (a : Addr) (access : Access) (leaf : Leaf) : PointerRun :=
  if leaf.size > 0 then
    match leaf with
    | .logical _ | .integer _ => { deferred := { integer := [⟨a,access,leaf.type⟩] } }
    | .real _ => { deferred := { real := [⟨a,access,leaf.type⟩] } }
    | .complex _ => { deferred := { complex := [⟨a,access,leaf.type⟩] } }
    | .string _ => { deferred := { string := [⟨a,access,leaf.type⟩] } }
    | .raw _ => { deferred := { raw := [⟨a,access,leaf.type⟩] } }
  else {}

/-- `write_object` on the object at `a`. `frames` is the room for calls inside one
another; only the depth guard, by `budget`, keeps the source from running out of it. -/
def writeObjectAt : Nat → Heap → Nat → Addr → PointerRun
  | 0, _, _, _ => { ending := some .overflow }
  | frames+1, m, budget, a =>
    match m a with
    | none => { ending := some .undefined }
    | some .nil => (enterObjectScope budget ++ pushPod [nilHeader]).bare
    | some (.vector access leaf attrs) =>
        (enterObjectScope budget).bare ++ ((beginLeafVector leaf attrs.length).bare ++
          (writeAttributesAt (writeObjectAt frames) m (budget-1) attrs ++
            deferPayloadAt a access leaf))
    | some (.list values attrs) =>
        (enterObjectScope budget).bare ++ ((beginListVector values.length attrs.length).bare ++
          (writeAttributesAt (writeObjectAt frames) m (budget-1) attrs ++
            writeValuesAt (writeObjectAt frames) m (budget-1) values))
    | some (.writable p) => writeObjectAt frames m budget p
    | some .uninitialized => (failWith "qdata::writable is not initialized").bare

section
variable {frames : Nat} {m : Heap} {budget : Nat} {a : Addr}

theorem writeObjectAt_vector {access : Access} {leaf : Leaf} {attrs : List (Bytes × Given)}
    (cell : m a = some (.vector access leaf attrs)) :
    writeObjectAt (frames+1) m budget a =
      (enterObjectScope budget).bare ++ ((beginLeafVector leaf attrs.length).bare ++
        (writeAttributesAt (writeObjectAt frames) m (budget-1) attrs ++
          deferPayloadAt a access leaf)) := by
  rw [writeObjectAt,cell]

theorem writeObjectAt_list {values : List Given} {attrs : List (Bytes × Given)}
    (cell : m a = some (.list values attrs)) :
    writeObjectAt (frames+1) m budget a =
      (enterObjectScope budget).bare ++ ((beginListVector values.length attrs.length).bare ++
        (writeAttributesAt (writeObjectAt frames) m (budget-1) attrs ++
          writeValuesAt (writeObjectAt frames) m (budget-1) values)) := by
  rw [writeObjectAt,cell]

theorem writeObjectAt_writable {p : Addr} (cell : m a = some (.writable p)) :
    writeObjectAt (frames+1) m budget a = writeObjectAt frames m budget p := by
  rw [writeObjectAt,cell]

theorem writeObjectAt_nil (cell : m a = some .nil) :
    writeObjectAt (frames+1) m budget a = (enterObjectScope budget ++ pushPod [nilHeader]).bare := by
  rw [writeObjectAt,cell]

theorem writeObjectAt_uninitialized (cell : m a = some .uninitialized) :
    writeObjectAt (frames+1) m budget a =
      (failWith "qdata::writable is not initialized").bare := by
  rw [writeObjectAt,cell]

end

def payloadCall (access : Access) : Leaf → String
  | .logical _ => if access = .direct then "write_logical_data" else "write_logical_value"
  | .integer _ => if access = .direct then "write_integer_data" else "write_integer_value"
  | .real _ => if access = .direct then "write_real_data" else "write_real_value"
  | .complex _ => if access = .direct then "write_complex_data" else "write_complex_value"
  | .string _ => "write_string_value"
  | .raw _ => if access = .direct then "write_raw_data" else "write_raw_value"

def requirePayloadFlush (flushing : Bool) (what : String) : WriteRun :=
  if flushing then {} else failWith (what ++ " called before deferred payload flush")

/-- `payload.emit_fn(*this, payload.object_ptr)`: the pointer is followed only now, and
must lead to an object of the type the payload was put off for. -/
def emitPayloadAt (m : Heap) (flushing : Bool) (p : DeferredPayload) : PointerRun :=
  match m p.objectPtr with
  | some (.vector access leaf _) =>
      if p.access = access ∧ p.type = leaf.type then
        (requirePayloadFlush flushing (payloadCall access leaf) ++
          emitPayload ⟨access,leaf⟩).bare
      else { ending := some .undefined }
  | _ => { ending := some .undefined }

def flushPayloadGroupAt (m : Heap) (flushing : Bool) : List DeferredPayload → PointerRun
  | [] => {}
  | p :: rest => emitPayloadAt m flushing p ++ flushPayloadGroupAt m flushing rest

def flushPayloadsAt (m : Heap) (q : PayloadQueues) : PointerRun :=
  flushPayloadGroupAt m true q.string ++ (flushPayloadGroupAt m true q.complex ++
    (flushPayloadGroupAt m true q.real ++ (flushPayloadGroupAt m true q.integer ++
      flushPayloadGroupAt m true q.raw)))

def streamWriteAt (frames : Nat) (m : Heap) (maxDepth : Nat) (root : Addr) : PointerRun :=
  (checkedMaxNestingDepth maxDepth).bare ++ (writeObjectAt frames m maxDepth root ++
    flushPayloadsAt m (writeObjectAt frames m maxDepth root).deferred)

/-- From writing one object to writing another inside it, with memory as it is then. -/
inductive Leads : Heap × Addr → Heap × Addr → Prop
  | attr {m : Heap} {a : Addr} {access : Access} {leaf : Leaf} {attrs : List (Bytes × Given)}
      {x : Bytes × Given} (cell : m a = some (.vector access leaf attrs)) (mem : x ∈ attrs) :
      Leads (m,a) (m.during x.2,x.2.addr)
  | listAttr {m : Heap} {a : Addr} {values : List Given} {attrs : List (Bytes × Given)}
      {x : Bytes × Given} (cell : m a = some (.list values attrs)) (mem : x ∈ attrs) :
      Leads (m,a) (m.during x.2,x.2.addr)
  | element {m : Heap} {a : Addr} {values : List Given} {attrs : List (Bytes × Given)}
      {x : Given} (cell : m a = some (.list values attrs)) (mem : x ∈ values) :
      Leads (m,a) (m.during x,x.addr)
  | target {m : Heap} {a p : Addr} (cell : m a = some (.writable p)) : Leads (m,a) (m,p)

abbrev Reaches : Heap × Addr → Heap × Addr → Prop := Relation.ReflTransGen Leads

/-- Behind at most `k` writables comes something else. -/
def Wraps (m : Heap) : Nat → Addr → Prop
  | 0, a => ∀ p, m a ≠ some (.writable p)
  | k+1, a => ∀ p, m a = some (.writable p) → Wraps m k p

theorem endless_writables {m : Heap} {a : Addr} (h : ∀ k, ¬ Wraps m k a) (budget frames : Nat) :
    writeObjectAt frames m budget a = { ending := some .overflow } := by
  induction frames generalizing a with
  | zero => rfl
  | succ frames ih =>
    obtain ⟨p,hp⟩ : ∃ p, m a = some (.writable p) := by
      by_contra hnone
      exact h 0 fun p hp => hnone ⟨p,hp⟩
    rw [writeObjectAt_writable hp]
    refine ih fun k hk => h (k+1) fun q hq => ?_
    rw [hp] at hq
    cases hq
    exact hk

/-- No depth guard stands in the way of a writable: a row of them without end runs out of
any stack. -/
theorem streamWriteAt_writables {m : Heap} {root : Addr} (h : ∀ k, ¬ Wraps m k root)
    {maxDepth : Nat} (hd : maxDepth ≠ 0) (frames : Nat) :
    (streamWriteAt frames m maxDepth root).ending = some .overflow := by
  have hdepth : (checkedMaxNestingDepth maxDepth).bare.ending = none := by
    rw [checkedMaxNestingDepth,if_neg hd]
    rfl
  rw [streamWriteAt,endless_writables h,PointerRun.ending_append,hdepth]
  rfl

/-- What the caller of `save` answers for: every object reached is there when it is
reached, and no writable leads through more than `w` others. -/
structure Walkable (w : Nat) (s : Heap × Addr) : Prop where
  present : ∀ t, Reaches s t → t.1 t.2 ≠ none
  chains : ∀ t, Reaches s t → Wraps t.1 w t.2

theorem Walkable.leads {w : Nat} {s t : Heap × Addr} (h : Walkable w s) (ht : Leads s t) :
    Walkable w t :=
  ⟨fun u hu => h.present u (.head ht hu),fun u hu => h.chains u (.head ht hu)⟩

structure PartWise (P : PointerRun → Prop) : Prop where
  empty : P {}
  append : ∀ x y, P x → P y → P (x ++ y)

section
variable {P : PointerRun → Prop} (hp : PartWise P) {self : Heap → Nat → Addr → PointerRun}
  {m : Heap} (budget : Nat)
include hp

theorem PartWise.attributes (hn : ∀ name, P (writeAttributeName name).bare) :
    (attrs : List (Bytes × Given)) →
      (∀ x ∈ attrs, P (self (m.during x.2) budget x.2.addr)) →
      P (writeAttributesAt self m budget attrs)
  | [], _ => hp.empty
  | (name,_) :: rest, h => by
      rw [writeAttributesAt]
      have hrest := PartWise.attributes hn rest fun y hy => h y (List.mem_cons_of_mem _ hy)
      exact hp.append _ _ (hn name) (hp.append _ _ (h _ List.mem_cons_self) hrest)

theorem PartWise.values : (values : List Given) →
    (∀ x ∈ values, P (self (m.during x) budget x.addr)) → P (writeValuesAt self m budget values)
  | [], _ => hp.empty
  | _ :: rest, h => by
      rw [writeValuesAt]
      exact hp.append _ _ (h _ List.mem_cons_self)
        (PartWise.values rest fun y hy => h y (List.mem_cons_of_mem _ hy))

end

theorem writeAttributesAt_congr {self other : Heap → Nat → Addr → PointerRun} {m : Heap}
    (budget : Nat) : (attrs : List (Bytes × Given)) →
      (∀ x ∈ attrs, self (m.during x.2) budget x.2.addr = other (m.during x.2) budget x.2.addr) →
      writeAttributesAt self m budget attrs = writeAttributesAt other m budget attrs
  | [], _ => rfl
  | (_,_) :: rest, h => by
      rw [writeAttributesAt,writeAttributesAt,h _ List.mem_cons_self,
        writeAttributesAt_congr budget rest fun y hy => h y (List.mem_cons_of_mem _ hy)]

theorem writeValuesAt_congr {self other : Heap → Nat → Addr → PointerRun} {m : Heap}
    (budget : Nat) : (values : List Given) →
      (∀ x ∈ values, self (m.during x) budget x.addr = other (m.during x) budget x.addr) →
      writeValuesAt self m budget values = writeValuesAt other m budget values
  | [], _ => rfl
  | _ :: rest, h => by
      rw [writeValuesAt,writeValuesAt,h _ List.mem_cons_self,
        writeValuesAt_congr budget rest fun y hy => h y (List.mem_cons_of_mem _ hy)]

def PointerRun.Settles (r : PointerRun) : Prop :=
  r.ending = none ∨ ∃ msg, r.ending = some (.threw msg)

theorem settles_partWise : PartWise PointerRun.Settles where
  empty := .inl rfl
  append x y hx hy := by
    rcases hx with hx | ⟨msg,hx⟩
    · rw [PointerRun.Settles,PointerRun.append_ok hx]
      exact hy
    · rw [PointerRun.append_ended hx]
      exact .inr ⟨msg,hx⟩

theorem WriteRun.bare_settles (r : WriteRun) : r.bare.Settles := by
  cases h : r.error with
  | none => exact .inl (by simp [WriteRun.bare,h])
  | some msg => exact .inr ⟨msg,by simp [WriteRun.bare,h]⟩

theorem deferPayloadAt_ending (a : Addr) (access : Access) (leaf : Leaf) :
    (deferPayloadAt a access leaf).ending = none := by
  unfold deferPayloadAt
  split
  · cases leaf <;> rfl
  · rfl

theorem scope_refused (r : PointerRun) :
    (enterObjectScope 0).bare ++ r =
      (failWith "qdata nesting depth exceeds configured max_depth").bare :=
  PointerRun.append_ended rfl

theorem frames_inside {budget w k frames : Nat} (h : (budget+1)*(w+1)+k < frames+1) :
    budget*(w+1)+w < frames := by
  rw [Nat.succ_mul] at h
  omega

theorem Wraps.target {m : Heap} {k : Nat} {a p : Addr} (h : Wraps m k a)
    (cell : m a = some (.writable p)) : ∃ j, k = j+1 ∧ Wraps m j p := by
  cases k with
  | zero => exact absurd cell (h p)
  | succ j => exact ⟨j,rfl,h p cell⟩

/-- The calls of `write_object` go no deeper than the depth limit and the writables in
front of each object allow, on any memory, also where objects hold one another in a
circle; and no object is missing while headers are written. -/
theorem writeObjectAt_settles {w : Nat} (frames : Nat) {m : Heap} {a : Addr} {budget k : Nat}
    (h : Walkable w (m,a)) (hk : Wraps m k a) (hf : budget*(w+1)+k < frames) :
    (writeObjectAt frames m budget a).Settles := by
  induction frames generalizing m a budget k with
  | zero => omega
  | succ frames ih =>
    cases hc : m a with
    | none => exact absurd hc (h.present _ .refl)
    | some cell =>
      cases cell with
      | nil =>
        rw [writeObjectAt_nil hc]
        exact WriteRun.bare_settles _
      | uninitialized =>
        rw [writeObjectAt_uninitialized hc]
        exact WriteRun.bare_settles _
      | writable p =>
        obtain ⟨j,rfl,hj⟩ := hk.target hc
        rw [writeObjectAt_writable hc]
        exact ih (h.leads (.target hc)) hj (by omega)
      | vector access leaf attrs =>
        rw [writeObjectAt_vector hc]
        cases budget with
        | zero =>
          rw [scope_refused]
          exact WriteRun.bare_settles _
        | succ budget =>
          have inside : ∀ x ∈ attrs,
              (writeObjectAt frames (m.during x.2) budget x.2.addr).Settles := fun x hx =>
            have hs := h.leads (.attr hc hx)
            ih hs (hs.chains _ .refl) (frames_inside hf)
          have hattrs := settles_partWise.attributes budget
            (fun name => WriteRun.bare_settles (writeAttributeName name)) attrs inside
          exact settles_partWise.append _ _ (WriteRun.bare_settles _)
            (settles_partWise.append _ _ (WriteRun.bare_settles _)
              (settles_partWise.append _ _ hattrs (.inl (deferPayloadAt_ending ..))))
      | list values attrs =>
        rw [writeObjectAt_list hc]
        cases budget with
        | zero =>
          rw [scope_refused]
          exact WriteRun.bare_settles _
        | succ budget =>
          have insideAttrs : ∀ x ∈ attrs,
              (writeObjectAt frames (m.during x.2) budget x.2.addr).Settles := fun x hx =>
            have hs := h.leads (.listAttr hc hx)
            ih hs (hs.chains _ .refl) (frames_inside hf)
          have inside : ∀ x ∈ values,
              (writeObjectAt frames (m.during x) budget x.addr).Settles := fun x hx =>
            have hs := h.leads (.element hc hx)
            ih hs (hs.chains _ .refl) (frames_inside hf)
          have hattrs := settles_partWise.attributes budget
            (fun name => WriteRun.bare_settles (writeAttributeName name)) attrs insideAttrs
          have hvalues := settles_partWise.values budget values inside
          exact settles_partWise.append _ _ (WriteRun.bare_settles _)
            (settles_partWise.append _ _ (WriteRun.bare_settles _)
              (settles_partWise.append _ _ hattrs hvalues))

theorem writeObjectAt_frames {w : Nat} (frames frames' : Nat) {m : Heap} {a : Addr}
    {budget k : Nat} (h : Walkable w (m,a)) (hk : Wraps m k a) (hf : budget*(w+1)+k < frames)
    (hf' : budget*(w+1)+k < frames') :
    writeObjectAt frames m budget a = writeObjectAt frames' m budget a := by
  induction frames generalizing frames' m a budget k with
  | zero => omega
  | succ frames ih =>
    cases frames' with
    | zero => omega
    | succ frames' =>
      cases hc : m a with
      | none => rw [writeObjectAt,writeObjectAt,hc]
      | some cell =>
        cases cell with
        | nil => rw [writeObjectAt_nil hc,writeObjectAt_nil hc]
        | uninitialized => rw [writeObjectAt_uninitialized hc,writeObjectAt_uninitialized hc]
        | writable p =>
          obtain ⟨j,rfl,hj⟩ := hk.target hc
          rw [writeObjectAt_writable hc,writeObjectAt_writable hc]
          exact ih frames' (h.leads (.target hc)) hj (by omega) (by omega)
        | vector access leaf attrs =>
          rw [writeObjectAt_vector hc,writeObjectAt_vector hc]
          cases budget with
          | zero => simp only [scope_refused]
          | succ budget =>
            have hattrs := writeAttributesAt_congr budget attrs fun x hx =>
              have hs := h.leads (.attr hc hx)
              ih frames' hs (hs.chains _ .refl) (frames_inside hf) (frames_inside hf')
            simp only [Nat.add_sub_cancel,hattrs]
        | list values attrs =>
          rw [writeObjectAt_list hc,writeObjectAt_list hc]
          cases budget with
          | zero => simp only [scope_refused]
          | succ budget =>
            have hattrs := writeAttributesAt_congr budget attrs fun x hx =>
              have hs := h.leads (.listAttr hc hx)
              ih frames' hs (hs.chains _ .refl) (frames_inside hf) (frames_inside hf')
            have hvalues := writeValuesAt_congr budget values fun x hx =>
              have hs := h.leads (.element hc hx)
              ih frames' hs (hs.chains _ .refl) (frames_inside hf) (frames_inside hf')
            simp only [Nat.add_sub_cancel,hattrs,hvalues]

end QData
