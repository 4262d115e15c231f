import QData.ReaderLimits
import QData.Lib.Faults
/-! The nesting limit: one depth for the writer and the reader, and the counters that their
guards keep. -/
set_option autoImplicit false

namespace QData
open Words Requests Scopes

def depthMessage : String := "qdata nesting depth exceeds configured max_depth"

/-! Within the other limits, depth is all that a write can fail over. -/

def depthError (depth budget : Nat) : Option String :=
  if depth ≤ budget then none else some depthMessage

theorem depthError_or (a b budget : Nat) :
    (depthError a budget).or (depthError b budget) = depthError (max a b) budget := by
  unfold depthError
  split <;> split <;> simp <;> omega

theorem enterObjectScope_depth (depth budget : Nat) :
    (enterObjectScope budget).error.or (depthError depth (budget-1)) =
      depthError (1+depth) budget := by
  by_cases h : budget = 0
  · simp [enterObjectScope,depthError,depthMessage,failWith,h]
  · simp only [enterObjectScope,if_neg h,Option.none_or,depthError]
    split <;> split <;> first | rfl | omega

mutual
theorem writeObject_depth : (v : Value) → v.WithinLimits → (budget : Nat) →
    (writeObject budget v).error = depthError v.depth budget
  | .nil, _, budget => by
      have hz : depthError 0 (budget-1) = none := if_pos (Nat.zero_le _)
      rw [writeObject,WriteRun.error_append_or,pushPod_error,← hz]
      exact enterObjectScope_depth 0 budget
  | .vector access leaf attrs, hv, budget => by
      obtain ⟨hs,_,hc,ha⟩ := hv
      have hbegin := (beginLeafVector_sound.mpr ⟨hs,hc⟩).1
      simp only [writeObject,WriteRun.error_append_or,hbegin,deferPayload_error,Option.none_or,
        Option.or_none,writeAttributes_depth attrs ha,enterObjectScope_depth,Value.depth]
  | .list values attrs, hv, budget => by
      obtain ⟨hs,hc,ha,hx⟩ := hv
      have hbegin := (beginListVector_sound.mpr ⟨hs,hc⟩).1
      simp only [writeObject,WriteRun.error_append_or,hbegin,Option.none_or,depthError_or,
        writeAttributes_depth attrs ha,writeValues_depth values hx,enterObjectScope_depth,
        Value.depth]
  | .writable v, hv, budget => writeObject_depth v hv budget

theorem writeAttributes_depth : (attrs : List (Bytes × Value)) → AttrsWithinLimits attrs →
    (budget : Nat) → (writeAttributes budget attrs).error = depthError (attrsDepth attrs) budget
  | [], _, budget => by simp [writeAttributes,attrsDepth,depthError]
  | (name,v) :: rest, ha, budget => by
      obtain ⟨hn,hv,hr⟩ := ha
      have hname : (writeAttributeName name).error = none := (writeText_sound.mpr hn).1
      simp only [writeAttributes,WriteRun.error_append_or,hname,Option.none_or,depthError_or,
        writeObject_depth v hv,writeAttributes_depth rest hr,attrsDepth]

theorem writeValues_depth : (values : List Value) → ValuesWithinLimits values →
    (budget : Nat) → (writeValues budget values).error = depthError (valuesDepth values) budget
  | [], _, budget => by simp [writeValues,valuesDepth,depthError]
  | v :: rest, hx, budget => by
      obtain ⟨hv,hr⟩ := hx
      simp only [writeValues,WriteRun.error_append_or,depthError_or,writeObject_depth v hv,
        writeValues_depth rest hr,valuesDepth]
end

theorem streamWrite_depth {v : Value} (hl : v.WithinLimits) {d : Nat} (hd : d ≠ 0) :
    (streamWrite d v).error = depthError v.depth d := by
  by_cases h : v.depth ≤ d
  · rw [depthError,if_pos h]
    exact streamWrite_error.mpr ⟨hd,hl,h⟩
  · simp [streamWrite,WriteRun.error_append_or,checkedMaxNestingDepth,hd,writeObject_depth v hl,
      depthError,h]

/-! The writer with its counter. -/

def inTurn (a b : Counted WriteRun) : Counted WriteRun := do
  let r ← a
  match r.error with
  | some _ => pure r
  | none =>
    let r' ← b
    pure (r ++ r')

def serializerDepthGuard (maxDepth : Nat) (body : Counted WriteRun) : Counted WriteRun :=
  guarded maxDepth (failWith depthMessage) body

mutual
/-- `write_object` on `current_nesting_depth_`. A native `object` and a `writable` have no
guard of their own. -/
def scopedWriteObject (maxDepth : Nat) : Value → Counted WriteRun
  | .nil => serializerDepthGuard maxDepth (pure (pushPod [nilHeader]))
  | .vector access leaf attrs =>
      serializerDepthGuard maxDepth (inTurn (pure (beginLeafVector leaf attrs.length))
        (inTurn (scopedWriteAttributes maxDepth attrs) (pure (deferPayload ⟨access,leaf⟩))))
  | .list values attrs =>
      serializerDepthGuard maxDepth (inTurn (pure (beginListVector values.length attrs.length))
        (inTurn (scopedWriteAttributes maxDepth attrs) (scopedWriteValues maxDepth values)))
  | .writable v => scopedWriteObject maxDepth v
  | .uninitialized => pure (failWith "qdata::writable is not initialized")

def scopedWriteAttributes (maxDepth : Nat) : List (Bytes × Value) → Counted WriteRun
  | [] => pure {}
  | (name,v) :: rest =>
      inTurn (pure (writeAttributeName name))
        (inTurn (scopedWriteObject maxDepth v) (scopedWriteAttributes maxDepth rest))

def scopedWriteValues (maxDepth : Nat) : List Value → Counted WriteRun
  | [] => pure {}
  | v :: rest => inTurn (scopedWriteObject maxDepth v) (scopedWriteValues maxDepth rest)
end

theorem inTurn_yields {a b : Counted WriteRun} {n : Nat} {r r' : WriteRun}
    (ha : Yields a n r) (hb : Yields b n r') : Yields (inTurn a b) n (r ++ r') := by
  refine ha.bind ?_
  cases h : r.error with
  | some e =>
    rw [WriteRun.append_failed h]
    exact .pure r n
  | none => exact hb.bind (.pure _ n)

theorem serializerDepthGuard_yields {maxDepth n : Nat} {body : Counted WriteRun} {r : WriteRun}
    (hb : Yields body (n+1) r) :
    Yields (serializerDepthGuard maxDepth body) n (enterObjectScope (maxDepth-n) ++ r) := by
  by_cases h : n < maxDepth
  · rw [enterObjectScope,if_neg (by omega),WriteRun.empty_append]
    exact .entered h hb
  · rw [enterObjectScope,if_pos (by omega),WriteRun.append_failed rfl]
    exact .refused (by omega) _ _

mutual
/-- The scopes still free are what the writer has left of its limit, and every object gives
back the scope it took. -/
theorem scopedWriteObject_yields (maxDepth : Nat) : (v : Value) → (n : Nat) →
    Yields (scopedWriteObject maxDepth v) n (writeObject (maxDepth-n) v)
  | .nil, _ => serializerDepthGuard_yields (.pure _ _)
  | .vector _ _ attrs, n =>
      serializerDepthGuard_yields (inTurn_yields (.pure _ _)
        (inTurn_yields (scopedWriteAttributes_yields maxDepth attrs (n+1)) (.pure _ _)))
  | .list values attrs, n =>
      serializerDepthGuard_yields (inTurn_yields (.pure _ _)
        (inTurn_yields (scopedWriteAttributes_yields maxDepth attrs (n+1))
          (scopedWriteValues_yields maxDepth values (n+1))))
  | .writable v, n => scopedWriteObject_yields maxDepth v n
  | .uninitialized, n => .pure _ n

theorem scopedWriteAttributes_yields (maxDepth : Nat) : (attrs : List (Bytes × Value)) →
    (n : Nat) →
    Yields (scopedWriteAttributes maxDepth attrs) n (writeAttributes (maxDepth-n) attrs)
  | [], n => .pure _ n
  | (_,v) :: rest, n =>
      inTurn_yields (.pure _ _) (inTurn_yields (scopedWriteObject_yields maxDepth v n)
        (scopedWriteAttributes_yields maxDepth rest n))

theorem scopedWriteValues_yields (maxDepth : Nat) : (values : List Value) → (n : Nat) →
    Yields (scopedWriteValues maxDepth values) n (writeValues (maxDepth-n) values)
  | [], n => .pure _ n
  | v :: rest, n =>
      inTurn_yields (scopedWriteObject_yields maxDepth v n)
        (scopedWriteValues_yields maxDepth rest n)
end

/-! A smaller `max_depth` makes the reader give up over what is too deep, and over nothing
else. -/

def depthExceeded : ReadError := .cleanup depthMessage

mutual
def Shell.depth : Shell → Nat
  | .nil => 1
  | .vector _ attrs => 1+shellAttrsDepth attrs
  | .list values attrs => 1+max (shellAttrsDepth attrs) (shellValuesDepth values)

def shellAttrsDepth : List (Bytes × Shell) → Nat
  | [] => 0
  | (_,x) :: rest => max x.depth (shellAttrsDepth rest)

def shellValuesDepth : List Shell → Nat
  | [] => 0
  | x :: rest => max x.depth (shellValuesDepth rest)
end

theorem Shell.depth_pos : (x : Shell) → 0 < x.depth
  | .nil => Nat.one_pos
  | .vector _ _ => by rw [Shell.depth]; omega
  | .list _ _ => by rw [Shell.depth]; omega

mutual
theorem resolve_depth (cells : List Leaf) : (x : Shell) → (x.resolve cells).depth = x.depth
  | .nil => rfl
  | .vector _ attrs => congrArg (1+·) (resolveAttrs_depth cells attrs)
  | .list values attrs =>
      congrArg (1+·) (congrArg₂ max (resolveAttrs_depth cells attrs)
        (resolveValues_depth cells values))

theorem resolveAttrs_depth (cells : List Leaf) : (attrs : List (Bytes × Shell)) →
    attrsDepth (attrsToValues (resolveAttrs cells attrs)) = shellAttrsDepth attrs
  | [] => rfl
  | (_,x) :: rest =>
      congrArg₂ max (resolve_depth cells x) (resolveAttrs_depth cells rest)

theorem resolveValues_depth (cells : List Leaf) : (values : List Shell) →
    valuesDepth (objectsToValues (resolveValues cells values)) = shellValuesDepth values
  | [] => rfl
  | x :: rest => congrArg₂ max (resolve_depth cells x) (resolveValues_depth cells rest)
end

section
variable {self self' : Building → Reader (Shell × Building)} {d : Nat}
  (hself : ∀ st, (self st).Clips depthExceeded (fun r => r.1.depth ≤ d) (self' st))
include hself

theorem readAttributeLoop_clips (n : Nat) (st : Building) :
    (readAttributeLoop self n st).Clips depthExceeded (fun r => shellAttrsDepth r.1 ≤ d)
      (readAttributeLoop self' n st) := by
  induction n generalizing st with
  | zero => exact .ret (Nat.zero_le d)
  | succ n ih =>
    rw [readAttributeLoop_succ,readAttributeLoop_succ]
    refine (Prog.Clips.refl _ _).bind (fun name _ => ?_) fun _ h => (h trivial).elim
    refine (hself st).bind (fun x hx => ?_) fun x hx => ?_
    · exact (ih x.2).bind (fun r hr => .ret (max_le hx hr))
        fun r hr h => hr ((le_max_right _ _).trans h)
    · exact (Prog.ensures_true _).bind fun r _ h => hx ((le_max_left _ _).trans h)

theorem readAttributes_clips (attrLength : Nat) (st : Building) :
    (readAttributes self attrLength st).Clips depthExceeded (fun r => shellAttrsDepth r.1 ≤ d)
      (readAttributes self' attrLength st) :=
  (Prog.Clips.refl _ _).bind (fun count _ => readAttributeLoop_clips hself count st)
    fun _ h => (h trivial).elim

theorem readValues_clips (n : Nat) (st : Building) :
    (readValues self n st).Clips depthExceeded (fun r => shellValuesDepth r.1 ≤ d)
      (readValues self' n st) := by
  induction n generalizing st with
  | zero => exact .ret (Nat.zero_le d)
  | succ n ih =>
    refine (hself st).bind (fun x hx => ?_) fun x hx => ?_
    · exact (ih x.2).bind (fun r hr => .ret (max_le hx hr))
        fun r hr h => hr ((le_max_right _ _).trans h)
    · exact (Prog.ensures_true _).bind fun r _ h => hx ((le_max_left _ _).trans h)

theorem readVector_clips (ofSize : Nat → Leaf) (what : String) (objectLength attrLength : Nat)
    (st : Building) :
    (readVector self ofSize what objectLength attrLength st).Clips depthExceeded
      (fun r => r.1.depth ≤ d+1) (readVector self' ofSize what objectLength attrLength st) := by
  refine (Prog.Clips.refl _ _).bind (fun size _ => ?_) fun _ h => (h trivial).elim
  have hdepth : ∀ (r : List (Bytes × Shell) × Building) address,
      (Shell.vector address r.1).depth ≤ d+1 ↔ shellAttrsDepth r.1 ≤ d := fun r address => by
    rw [Shell.depth]; omega
  exact (readAttributes_clips hself attrLength _).bind
    (fun r hr => .ret ((hdepth r _).mpr hr)) fun r hr h => hr ((hdepth r _).mp h)

end

theorem readInto_clips {d e : Nat} (h : d ≤ e) (st : Building) :
    (readInto e st).Clips depthExceeded (fun r => r.1.depth ≤ d) (readInto d st) := by
  induction d generalizing e st with
  | zero =>
    have hdeep : ∀ r : Shell × Building, True → ¬ r.1.depth ≤ 0 := fun r _ =>
      Nat.not_le.mpr r.1.depth_pos
    exact .stop ((Prog.ensures_true _).mono hdeep)
  | succ d ih =>
    obtain ⟨e,rfl⟩ : ∃ k, e = k+1 := ⟨e-1,by omega⟩
    have hself := fun st => ih (Nat.le_of_succ_le_succ h) st
    refine (Prog.Clips.refl _ _).bind (fun header _ => ?_) fun _ h => (h trivial).elim
    obtain ⟨type,objectLength,attrLength⟩ := header
    cases type with
    | nil => exact .ret (Nat.le_add_left 1 d)
    | «attribute» => exact .fail _
    | list =>
      refine (readAttributes_clips hself attrLength st).bind (fun a ha => ?_) fun a ha => ?_
      · refine (Prog.Clips.refl _ _).bind (fun size _ => ?_) fun _ h => (h trivial).elim
        refine (readValues_clips hself size a.2).bind (fun r hr => .ret ?_) fun r hr => ?_
        · rw [Shell.depth]; omega
        · intro h
          rw [Shell.depth] at h
          omega
      · refine (Prog.ensures_true _).bind fun size _ => (Prog.ensures_true _).bind fun r _ h => ?_
        rw [Shell.depth] at h
        omega
    | _ => exact readVector_clips hself _ _ _ _ st

theorem streamRead_limit {σ : Type} {h : Handler GetOp Bytes ReadError σ} {e : Nat} {s s' : σ}
    {o : Object} (hr : (streamRead e).run h s = .ok (o,s')) {d : Nat} (hd : d ≠ 0) :
    (streamRead d).run h s = if o.depth ≤ d then .ok (o,s') else .error depthHalt := by
  have he : e ≠ 0 := by
    rintro rfl
    cases hr
  rw [streamRead,if_neg he] at hr
  rw [streamRead,if_neg hd]
  obtain ⟨r,t,hobj,hrest⟩ := run_bind_eq_ok.mp hr
  obtain ⟨cells,t',hdata,hret⟩ := run_bind_eq_ok.mp hrest
  cases hret
  rw [resolve_depth]
  rcases Nat.le_total d e with hle | hle
  · rcases run_clips (readInto_clips hle {}) hobj with ⟨hw,hread⟩ | ⟨hw,hread⟩
    · rw [if_pos hw,readObject,run_bind_ok hread]
      exact hrest
    · rw [if_neg hw,readObject,run_bind_error hread]
      rfl
  · obtain ⟨hw,hread⟩ := clips_run (readInto_clips hle {}) hobj
    rw [if_pos (hw.trans hle),readObject,run_bind_ok hread]
    exact hrest

/-! The reader with its counter. -/

/-- How a read can end without a value: as on the block reader, or for want of room for
another active call of `read_into`. -/
inductive Stopped where
  | halt : Halt ReadError → Stopped
  | overflow : Stopped
  deriving DecidableEq, Repr

/-- A reader on the state of its block reader and on `current_depth_`. An exception keeps
only the latter. -/
abbrev ScopedReader (σ α : Type) := StateT σ (ExceptT Stopped Counted) α

section
variable {σ : Type} (h : Handler GetOp Bytes ReadError σ)

def perform {α : Type} (p : Reader α) : ScopedReader σ α := fun s =>
  ExceptT.mk (pure ((p.run h s).mapError .halt))

def recursionDepthGuard {α : Type} (maxDepth : Nat) (body : ScopedReader σ α) :
    ScopedReader σ α := fun s =>
  ExceptT.mk (guarded maxDepth (.error (.halt depthHalt)) (body s).run)

def scopedAttributeLoop (self : Building → ScopedReader σ (Shell × Building)) :
    Nat → Building → ScopedReader σ (List (Bytes × Shell) × Building)
  | 0, st => pure ([],st)
  | n+1, st => do
      let name ← perform h readAttributeName
      let (x,st) ← self st
      let (rest,st) ← scopedAttributeLoop self n st
      pure ((name,x) :: rest,st)

def scopedAttributes (self : Building → ScopedReader σ (Shell × Building)) (attrLength : Nat)
    (st : Building) : ScopedReader σ (List (Bytes × Shell) × Building) := do
  let count ← perform h (checkedRCompatibleAttrCount attrLength)
  scopedAttributeLoop h self count st

def scopedValues (self : Building → ScopedReader σ (Shell × Building)) :
    Nat → Building → ScopedReader σ (List Shell × Building)
  | 0, st => pure ([],st)
  | n+1, st => do
      let (x,st) ← self st
      let (rest,st) ← scopedValues self n st
      pure (x :: rest,st)

def scopedVector (self : Building → ScopedReader σ (Shell × Building)) (ofSize : Nat → Leaf)
    (what : String) (objectLength attrLength : Nat) (st : Building) :
    ScopedReader σ (Shell × Building) := do
  let size ← perform h (checkedRCompatibleVectorSize objectLength what)
  let (attrs,st') ← scopedAttributes h self attrLength (st.allocate (ofSize size))
  pure (.vector st.cells.length attrs,st'.register st.cells.length (ofSize size))

/-- `read_into` on `current_depth_`, where `calls` more calls may become active. A call is
active once its guard stands. -/
def scopedReadInto (maxDepth : Nat) : Nat → Building → ScopedReader σ (Shell × Building)
  | 0, _ => recursionDepthGuard maxDepth (throw .overflow)
  | calls+1, st => recursionDepthGuard maxDepth do
      let (type,objectLength,attrLength) ← perform h readObjectHeader
      match type with
      | .nil => pure (.nil,st)
      | .logical =>
          scopedVector h (scopedReadInto maxDepth calls) logicalOfSize "logical vector length"
            objectLength attrLength st
      | .integer =>
          scopedVector h (scopedReadInto maxDepth calls) integerOfSize "integer vector length"
            objectLength attrLength st
      | .real =>
          scopedVector h (scopedReadInto maxDepth calls) realOfSize "real vector length"
            objectLength attrLength st
      | .complex =>
          scopedVector h (scopedReadInto maxDepth calls) complexOfSize "complex vector length"
            objectLength attrLength st
      | .character =>
          scopedVector h (scopedReadInto maxDepth calls) stringOfSize "string vector length"
            objectLength attrLength st
      | .list => do
          let (attrs,st) ← scopedAttributes h (scopedReadInto maxDepth calls) attrLength st
          let size ← perform h (checkedRCompatibleVectorSize objectLength "list length")
          let (values,st) ← scopedValues (scopedReadInto maxDepth calls) size st
          pure (.list values attrs,st)
      | .raw =>
          scopedVector h (scopedReadInto maxDepth calls) rawOfSize "raw vector length"
            objectLength attrLength st
      | .attribute => perform h (cleanupAndThrow "Unsupported qdata object type")

end

/-- With `n` scopes open, the one reads as the other does and closes what it opened. -/
def ReadsAs {σ α : Type} (h : Handler GetOp Bytes ReadError σ) (n : Nat) (m : ScopedReader σ α)
    (p : Reader α) : Prop :=
  ∀ s, Yields (m s).run n ((p.run h s).mapError .halt)

section
variable {σ α β : Type} {h : Handler GetOp Bytes ReadError σ} {n : Nat}

theorem ReadsAs.pure (a : α) : ReadsAs h n (pure a) (pure a) := fun _ => rfl

theorem ReadsAs.perform (p : Reader α) : ReadsAs h n (perform h p) p := fun _ => rfl

theorem ReadsAs.bind {m : ScopedReader σ α} {p : Reader α} {f : α → ScopedReader σ β}
    {g : α → Reader β} (hm : ReadsAs h n m p) (hf : ∀ a, ReadsAs h n (f a) (g a)) :
    ReadsAs h n (m >>= f) (p >>= g) := by
  intro s
  refine Yields.bind (f := ExceptT.bindCont fun x => f x.1 x.2) (hm s) ?_
  cases hp : p.run h s with
  | error e =>
    rw [run_bind_error hp]
    exact .pure _ n
  | ok x =>
    rw [run_bind_ok hp]
    exact hf x.1 x.2

theorem ReadsAs.refused {maxDepth : Nat} (hn : maxDepth ≤ n)
    (body : ScopedReader σ (Shell × Building)) (st : Building) :
    ReadsAs h n (recursionDepthGuard maxDepth body) (readInto (maxDepth-n) st) := by
  intro s
  have hz : maxDepth-n = 0 := by omega
  rw [hz]
  exact .refused hn _ _

theorem ReadsAs.entered {maxDepth : Nat} (hn : n < maxDepth) {body : ScopedReader σ α}
    {p : Reader α} (hb : ReadsAs h (n+1) body p) :
    ReadsAs h n (recursionDepthGuard maxDepth body) p := fun s =>
  .entered hn (hb s)

section
variable {counted : Building → ScopedReader σ (Shell × Building)}
  {self : Building → Reader (Shell × Building)}
  (hself : ∀ st, ReadsAs h n (counted st) (self st))
include hself

theorem scopedAttributeLoop_readsAs (k : Nat) (st : Building) :
    ReadsAs h n (scopedAttributeLoop h counted k st) (readAttributeLoop self k st) := by
  induction k generalizing st with
  | zero => exact .pure _
  | succ k ih =>
    rw [readAttributeLoop_succ]
    exact (ReadsAs.perform _).bind fun name => (hself st).bind fun x =>
      (ih x.2).bind fun _ => .pure _

theorem scopedAttributes_readsAs (attrLength : Nat) (st : Building) :
    ReadsAs h n (scopedAttributes h counted attrLength st) (readAttributes self attrLength st) :=
  (ReadsAs.perform _).bind fun count => scopedAttributeLoop_readsAs hself count st

theorem scopedValues_readsAs (k : Nat) (st : Building) :
    ReadsAs h n (scopedValues counted k st) (readValues self k st) := by
  induction k generalizing st with
  | zero => exact .pure _
  | succ k ih => exact (hself st).bind fun x => (ih x.2).bind fun _ => .pure _

theorem scopedVector_readsAs (ofSize : Nat → Leaf) (what : String) (objectLength attrLength : Nat)
    (st : Building) : ReadsAs h n (scopedVector h counted ofSize what objectLength attrLength st)
      (readVector self ofSize what objectLength attrLength st) :=
  (ReadsAs.perform _).bind fun _ =>
    (scopedAttributes_readsAs hself attrLength _).bind fun _ => .pure _

end

/-- Room for the calls that the limit still admits is room for every input, and every call
gives back the scope it took. -/
theorem scopedReadInto_readsAs {maxDepth calls : Nat} (hc : maxDepth-n ≤ calls) (st : Building) :
    ReadsAs h n (scopedReadInto h maxDepth calls st) (readInto (maxDepth-n) st) := by
  induction calls generalizing n st with
  | zero => exact .refused (by omega) _ st
  | succ calls ih =>
    by_cases hn : maxDepth ≤ n
    · exact .refused hn _ st
    have hself := fun st => ih (n := n+1) (by omega : maxDepth-(n+1) ≤ calls) st
    have hroom : maxDepth-n = maxDepth-(n+1)+1 := by omega
    rw [hroom]
    refine .entered (by omega) ((ReadsAs.perform _).bind fun header => ?_)
    obtain ⟨type,objectLength,attrLength⟩ := header
    cases type with
    | nil => exact .pure _
    | «attribute» => exact .perform _
    | list =>
      exact (scopedAttributes_readsAs hself attrLength st).bind fun a =>
        (ReadsAs.perform _).bind fun size =>
          (scopedValues_readsAs hself size a.2).bind fun _ => .pure _
    | _ => exact scopedVector_readsAs hself _ _ _ _ st

end

theorem halts_not_overflow {α : Type} (x : Except (Halt ReadError) α) :
    x.mapError Stopped.halt ≠ .error .overflow := by
  cases x <;> simp [Except.mapError]

/-- One nesting limit: the writer and the reader give up over exactly the objects that are
deeper, the reader in whatever surroundings let it read the object under some limit. Their
counters end where they began, and no input needs more active calls than the limit. -/
theorem nesting_limit {v : Value} (hl : v.WithinLimits) {d : Nat} (hd : 1 ≤ d) :
    ((streamWrite d v).error = some depthMessage ↔ d < v.depth) ∧
    (∀ e rest, v.depth ≤ e →
      ((streamRead d).run channel (pushedBytes (streamWrite e v).pushed ++ rest) =
        .error depthHalt ↔ d < v.depth)) ∧
    (∀ (σ : Type) (h : Handler GetOp Bytes ReadError σ) e s s' o,
      (streamRead e).run h s = .ok (o,s') →
      ((streamRead d).run h s = .error depthHalt ↔ d < o.depth)) ∧
    (∀ w n, ((scopedWriteObject d w).run n).1 = writeObject (d-n) w ∧
      ((scopedWriteObject d w).run n).2 = n) ∧
    (∀ (σ : Type) (h : Handler GetOp Bytes ReadError σ) calls st s n, d-n ≤ calls →
      ((scopedReadInto h d calls st s).run.run n).1 ≠ .error .overflow ∧
      ((scopedReadInto h d calls st s).run.run n).1 =
        ((readInto (d-n) st).run h s).mapError .halt ∧
      ((scopedReadInto h d calls st s).run.run n).2 = n) := by
  refine ⟨?_,fun e rest he => ?_,fun σ h e s s' o hr => ?_,fun w n => ?_,
    fun σ h calls st s n hc => ?_⟩
  · rw [streamWrite_depth hl (by omega),depthError]
    split <;> simp <;> omega
  · have hpos := v.depth_pos hl
    rw [streamRead_written (streamWrite_error.mpr ⟨by omega,hl,he⟩) (by omega)]
    split <;> simp <;> omega
  · rw [streamRead_limit hr (by omega)]
    split <;> simp <;> omega
  · have h := scopedWriteObject_yields d w n
    exact ⟨congrArg Prod.fst h,congrArg Prod.snd h⟩
  · have hy := scopedReadInto_readsAs (h := h) hc st s
    have hres := congrArg Prod.fst hy
    exact ⟨fun hover => halts_not_overflow _ (hres.symm.trans hover),hres,congrArg Prod.snd hy⟩

/-- Three objects deep, through a wrapper. -/
theorem nesting_limit_list :
    (streamWrite 2 (.list [.writable (.list [.nil] [])] [])).error = some depthMessage ∧
    (streamRead 2).run channel (pushedBytes (streamWrite 3
      (.list [.writable (.list [.nil] [])] [])).pushed ++ [0xFF]) = .error depthHalt :=
  have h := nesting_limit (v := .list [.writable (.list [.nil] [])] []) (d := 2)
    (by simp [Value.WithinLimits,ValuesWithinLimits,AttrsWithinLimits,
      maxRCompatibleVectorLength,maxRCompatibleAttrCount]) (by decide)
  ⟨h.1.mpr (by decide),(h.2.1 3 [0xFF] (by decide)).mpr (by decide)⟩

/-- The second of two calls, which the limit admits, where there is room for one. -/
example : ((scopedReadInto channel 2 1 {} [listHeader5 ||| 1,nilHeader]).run.run 0).1 =
    .error .overflow := rfl

end QData
