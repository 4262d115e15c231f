import QData.StringStorage
import QData.Lib.Claims
/-! The deserializer with the memory it needs. What it reads off the stream it checks against a
limit and then makes room for, and either can end in an exception of its own. -/
set_option autoImplicit false

namespace QData
open Words Requests

/-- What the deserializer allocates, with the length or count that was read for it. A string has
room made for it where the slab in use has none left. -/
inductive Claim where
  | vector (type : Qstype) (length : Nat)
  | attributes (count : Nat)
  | name (length : Nat)
  | namedObject
  | list (length : Nat)
  | element
  | queued (type : Qstype)
  | storage
  | string (length : Nat)
  | slab
  deriving DecidableEq, Repr

def Qstype.what : Qstype → String
  | .logical => "logical vector length"
  | .integer => "integer vector length"
  | .real => "real vector length"
  | .complex => "complex vector length"
  | .character => "string vector length"
  | .raw => "raw vector length"
  | .list => "list length"
  | .nil | .attribute => ""

def Claim.overLimit : Claim → Option ReadError
  | .vector type n =>
      if n > maxRCompatibleVectorLength then
        some (.direct (type.what ++ " exceeds qdata's R-compatible vector length limit"))
      else none
  | .list n =>
      if n > maxRCompatibleVectorLength then
        some (.direct (Qstype.what .list ++ " exceeds qdata's R-compatible vector length limit"))
      else none
  | .attributes n =>
      if n > maxRCompatibleAttrCount then
        some (.direct "attribute count exceeds qdata's R-compatible INT_MAX limit")
      else none
  | .name n =>
      if n > maxRCompatibleStringLength then
        some (.direct ("attribute name length" ++
          " exceeds qdata's R-compatible string length limit"))
      else none
  | .string n =>
      if n > maxRCompatibleStringLength then
        some (.direct ("string length" ++ " exceeds qdata's R-compatible string length limit"))
      else none
  | _ => none

/-- Which allocations succeed, in view of those before. -/
abbrev Allocator := List Claim → Claim → Bool

/-- The exception that keeps the deserializer from an allocation, thrown past the reader. -/
def Claim.denied (memory : Allocator) (past : List Claim) (c : Claim) : Option ReadError :=
  match c.overLimit with
  | some e => some e
  | none => if memory past c then none else some (.direct "std::bad_alloc")

def ReadError.IsDirect : ReadError → Prop
  | .direct _ => True
  | .cleanup _ => False

theorem Claim.denied_direct (memory : Allocator) (past : List Claim) (c : Claim) (e : ReadError)
    (h : c.denied memory past = some e) : e.IsDirect := by
  have hlimit : ∀ e, c.overLimit = some e → e.IsDirect := by
    intro e he
    cases c <;> simp only [Claim.overLimit] at he
    all_goals first | cases he | (split at he <;> cases he; trivial)
  unfold Claim.denied at h
  split at h
  · next e' he' =>
    cases h
    exact hlimit _ he'
  · split at h
    · cases h
    · cases h
      trivial

/-! The functions of the deserializer, each with the allocations it makes. -/

abbrev ClaimingReader (α : Type) := Prog (GetOp ⊕ Claim) Bytes ReadError α

def claim (c : Claim) : ClaimingReader Unit := Prog.claim c

def claimingAttributeLoop (self : Building → ClaimingReader (Shell × Building)) :
    Nat → Building → ClaimingReader (List (Bytes × Shell) × Building)
  | 0, st => pure ([],st)
  | n+1, st => do
      let nameLength ← readStringHeader.claimless
      if nameLength = naStringLength then
        (cleanupAndThrow "Attribute names cannot be NA").claimless
      else
        claim (.name nameLength)
        let name ← if nameLength > 0 then (getData nameLength).claimless else pure []
        claim .namedObject
        let (x,st) ← self st
        let (rest,st) ← claimingAttributeLoop self n st
        pure ((name,x) :: rest,st)

def claimingAttributes (self : Building → ClaimingReader (Shell × Building)) (attrLength : Nat)
    (st : Building) : ClaimingReader (List (Bytes × Shell) × Building) := do
  claim (.attributes attrLength)
  claimingAttributeLoop self attrLength st

def claimingValues (self : Building → ClaimingReader (Shell × Building)) :
    Nat → Building → ClaimingReader (List Shell × Building)
  | 0, st => pure ([],st)
  | n+1, st => do
      claim .element
      let (x,st) ← self st
      let (rest,st) ← claimingValues self n st
      pure (x :: rest,st)

def claimingVector (self : Building → ClaimingReader (Shell × Building)) (ofSize : Nat → Leaf)
    (type : Qstype) (objectLength attrLength : Nat) (st : Building) :
    ClaimingReader (Shell × Building) := do
  claim (.vector type objectLength)
  let (attrs,st') ← claimingAttributes self attrLength (st.allocate (ofSize objectLength))
  if objectLength > 0 then
    claim (.queued type)
    pure (.vector st.cells.length attrs,st'.register st.cells.length (ofSize objectLength))
  else pure (.vector st.cells.length attrs,st'.register st.cells.length (ofSize objectLength))

def claimingInto : Nat → Building → ClaimingReader (Shell × Building)
  | 0, _ => (cleanupAndThrow "qdata nesting depth exceeds configured max_depth").claimless
  | budget+1, st => do
      let (type,objectLength,attrLength) ← readObjectHeader.claimless
      match type with
      | .nil => pure (.nil,st)
      | .logical =>
          claimingVector (claimingInto budget) logicalOfSize .logical objectLength attrLength st
      | .integer =>
          claimingVector (claimingInto budget) integerOfSize .integer objectLength attrLength st
      | .real =>
          claimingVector (claimingInto budget) realOfSize .real objectLength attrLength st
      | .complex =>
          claimingVector (claimingInto budget) complexOfSize .complex objectLength attrLength st
      | .character =>
          claimingVector (claimingInto budget) stringOfSize .character objectLength attrLength st
      | .list => do
          let (attrs,st) ← claimingAttributes (claimingInto budget) attrLength st
          claim (.list objectLength)
          let (values,st) ← claimingValues (claimingInto budget) objectLength st
          pure (.list values attrs,st)
      | .raw =>
          claimingVector (claimingInto budget) rawOfSize .raw objectLength attrLength st
      | .attribute => (cleanupAndThrow "Unsupported qdata object type").claimless

/-- The record loop. A string too long for a shared slab gets one of its own, which the storage
takes when it is filled. -/
def claimingRecords : Nat → ClaimingReader (List (Option Bytes))
  | 0 => pure []
  | n+1 => do
      let stringLength ← readStringHeader.claimless
      if stringLength = naStringLength then
        let rest ← claimingRecords n
        pure (none :: rest)
      else if stringLength = 0 then
        let rest ← claimingRecords n
        pure (some [] :: rest)
      else
        claim (.string stringLength)
        let s ← (getData stringLength).claimless
        if stringLength > defaultStringStorageBytes then
          claim .slab
          let rest ← claimingRecords n
          pure (some s :: rest)
        else
          let rest ← claimingRecords n
          pure (some s :: rest)

def claimingStringPayloads (n : Nat) : ClaimingReader (List (Option Bytes)) := do
  claim .storage
  let records ← claimingRecords n
  claim .slab
  pure records

def claimingStringGroup : List Nat → List Leaf → ClaimingReader (List Leaf)
  | [], cells => pure cells
  | address :: rest, cells => do
      let records ← claimingStringPayloads (cells.getD address (.raw [])).size
      claimingStringGroup rest (cells.set address (.string records))

def claimingObjectData (st : Building) : ClaimingReader (List Leaf) := do
  let cells ← claimingStringGroup st.stringPayloads st.cells
  let cells ← (readArrayGroup st.complexPayloads cells).claimless
  let cells ← (readArrayGroup st.realPayloads cells).claimless
  let cells ← (readArrayGroup st.integerPayloads cells).claimless
  (readArrayGroup st.rawPayloads cells).claimless

def claimingStreamRead (maxDepth : Nat) : ClaimingReader Object := do
  let (shell,st) ← claimingInto maxDepth {}
  let cells ← claimingObjectData st
  pure (shell.resolve cells)

/-- `streamRead` where memory may be refused. -/
def streamReadWithin (memory : Allocator) (maxDepth : Nat) : Reader Object :=
  if maxDepth = 0 then throwDirectly "max_depth must be at least 1"
  else (claimingStreamRead maxDepth).settle (Claim.denied memory) []

/-! With memory enough it is the deserializer. -/

theorem judge_checked {α : Type} {c : Claim} {value limit : Nat} {msg : String}
    {f : Unit → ClaimingReader α} {g : Nat → Reader α}
    (hc : c.overLimit = if value > limit then some (.direct msg) else none)
    (hf : (f ()).judge Claim.overLimit = g value) :
    (claim c >>= f).judge Claim.overLimit =
      (if value > limit then throwDirectly msg else pure value) >>= g := by
  by_cases hv : value > limit
  · rw [if_pos hv] at hc
    rw [if_pos hv,claim,judge_claim_denied hc]
    rfl
  · rw [if_neg hv] at hc
    rw [if_neg hv,claim,judge_claim hc]
    exact hf

theorem judge_free {α : Type} {c : Claim} {f : Unit → ClaimingReader α} {q : Reader α}
    (hc : c.overLimit = none) (hf : (f ()).judge Claim.overLimit = q) :
    (claim c >>= f).judge Claim.overLimit = q :=
  (judge_claim hc).trans hf

section
variable {self : Building → ClaimingReader (Shell × Building)}
  {self' : Building → Reader (Shell × Building)}
  (hself : ∀ st, (self st).judge Claim.overLimit = self' st)
include hself

theorem claimingAttributeLoop_judge (n : Nat) (st : Building) :
    (claimingAttributeLoop self n st).judge Claim.overLimit = readAttributeLoop self' n st := by
  induction n generalizing st with
  | zero => rfl
  | succ n ih =>
    refine judge_bind (judge_claimless _) fun nameLength => ?_
    by_cases hna : nameLength = naStringLength
    · simp only [if_pos hna]
      rfl
    simp only [if_neg hna]
    refine judge_checked rfl ?_
    by_cases hlen : nameLength > 0
    · simp only [if_pos hlen]
      refine judge_bind (judge_claimless _) fun name => judge_free rfl ?_
      exact judge_bind (hself st) fun x => judge_bind (ih x.2) fun _ => rfl
    · simp only [if_neg hlen]
      refine judge_bind rfl fun name => judge_free rfl ?_
      exact judge_bind (hself st) fun x => judge_bind (ih x.2) fun _ => rfl

theorem claimingAttributes_judge (attrLength : Nat) (st : Building) :
    (claimingAttributes self attrLength st).judge Claim.overLimit =
      readAttributes self' attrLength st :=
  judge_checked rfl (claimingAttributeLoop_judge hself attrLength st)

theorem claimingValues_judge (n : Nat) (st : Building) :
    (claimingValues self n st).judge Claim.overLimit = readValues self' n st := by
  induction n generalizing st with
  | zero => rfl
  | succ n ih =>
    refine judge_free rfl ?_
    exact judge_bind (hself st) fun x => judge_bind (ih x.2) fun _ => rfl

theorem claimingVector_judge (ofSize : Nat → Leaf) {type : Qstype} {what : String}
    (hwhat : type.what = what) (objectLength attrLength : Nat) (st : Building) :
    (claimingVector self ofSize type objectLength attrLength st).judge Claim.overLimit =
      readVector self' ofSize what objectLength attrLength st := by
  refine judge_checked (by rw [← hwhat]; rfl) ?_
  refine judge_bind (claimingAttributes_judge hself _ _) fun x => ?_
  by_cases hlen : objectLength > 0
  · simp only [if_pos hlen]
    exact judge_free rfl rfl
  · simp only [if_neg hlen]
    rfl

end

theorem claimingInto_judge (budget : Nat) (st : Building) :
    (claimingInto budget st).judge Claim.overLimit = readInto budget st := by
  induction budget generalizing st with
  | zero => rfl
  | succ budget ih =>
    refine judge_bind (judge_claimless _) fun header => ?_
    obtain ⟨type,objectLength,attrLength⟩ := header
    cases type with
    | nil => rfl
    | «attribute» => rfl
    | list =>
      refine judge_bind (claimingAttributes_judge ih _ _) fun x => judge_checked rfl ?_
      exact judge_bind (claimingValues_judge ih _ _) fun _ => rfl
    | _ => exact claimingVector_judge ih _ rfl _ _ _

theorem claimingRecords_judge (n : Nat) :
    (claimingRecords n).judge Claim.overLimit = readStringPayloads n := by
  induction n with
  | zero => rfl
  | succ n ih =>
    refine judge_bind (judge_claimless _) fun stringLength => ?_
    by_cases hna : stringLength = naStringLength
    · simp only [if_pos hna]
      exact judge_bind ih fun _ => rfl
    by_cases hzero : stringLength = 0
    · simp only [if_neg hna,if_pos hzero]
      exact judge_bind ih fun _ => rfl
    simp only [if_neg hna,if_neg hzero]
    refine judge_checked rfl ?_
    refine judge_bind (judge_claimless _) fun s => ?_
    by_cases hlarge : stringLength > defaultStringStorageBytes
    · simp only [if_pos hlarge]
      exact judge_free rfl (judge_bind ih fun _ => rfl)
    · simp only [if_neg hlarge]
      exact judge_bind ih fun _ => rfl

theorem claimingStringPayloads_judge (n : Nat) :
    (claimingStringPayloads n).judge Claim.overLimit = readStringPayloads n := by
  refine judge_free rfl ?_
  have h : (claimingRecords n >>= fun records => do
      claim .slab
      pure records : ClaimingReader (List (Option Bytes))).judge Claim.overLimit =
        readStringPayloads n >>= pure :=
    judge_bind (claimingRecords_judge n) fun _ => rfl
  exact h.trans (Prog.bind_ret _)

theorem claimingStringGroup_judge (addresses : List Nat) (cells : List Leaf) :
    (claimingStringGroup addresses cells).judge Claim.overLimit =
      readStringGroup addresses cells := by
  induction addresses generalizing cells with
  | nil => rfl
  | cons address rest ih =>
    exact judge_bind (claimingStringPayloads_judge _) fun records => ih _

theorem claimingObjectData_judge (st : Building) :
    (claimingObjectData st).judge Claim.overLimit = readObjectData st := by
  refine judge_bind (claimingStringGroup_judge _ _) fun cells => ?_
  refine judge_bind (judge_claimless _) fun cells => ?_
  refine judge_bind (judge_claimless _) fun cells => ?_
  exact judge_bind (judge_claimless _) fun cells => judge_claimless _

theorem streamReadWithin_enough {memory : Allocator} (h : ∀ past c, memory past c = true)
    (maxDepth : Nat) : streamReadWithin memory maxDepth = streamRead maxDepth := by
  have hdenied : ∀ past c, Claim.denied memory past c = c.overLimit := by
    intro past c
    unfold Claim.denied
    cases c.overLimit with
    | none => simp only [h,if_true]
    | some e => rfl
  by_cases hz : maxDepth = 0
  · simp only [streamReadWithin,streamRead,if_pos hz]
  simp only [streamReadWithin,streamRead,if_neg hz]
  rw [settle_judge hdenied]
  refine judge_bind (claimingInto_judge _ _) fun x => ?_
  exact judge_bind (claimingObjectData_judge _) fun cells => rfl

/-! It asks for no empty pod, and what it throws by itself goes through the reader. -/

abbrev Careful {α : Type} (p : Reader α) : Prop :=
  p.Confined GetOp.Sized fun e => ¬ e.IsDirect

abbrev CarefulClaims {α : Type} (p : ClaimingReader α) : Prop :=
  p.Confined (Besides GetOp.Sized) fun e => ¬ e.IsDirect

theorem cleanupAndThrow_careful {α : Type} (msg : String) :
    Careful (cleanupAndThrow msg : Reader α) := id

theorem decodeObjectHeader_careful (headerByte : UInt8) (len : Nat) :
    Careful (decodeObjectHeader headerByte len) := by
  rw [decodeObjectHeader]
  split
  · split
    · trivial
    · split
      · next h =>
        exact Prog.Confined.bind ⟨(wideHeaders_sized h).1,fun _ => trivial⟩ fun _ => trivial
      · exact cleanupAndThrow_careful _
  · split
    · trivial
    · exact cleanupAndThrow_careful _

theorem readObjectHeader_careful : Careful readObjectHeader := by
  refine Prog.Confined.bind ⟨Nat.one_pos,fun _ => trivial⟩ fun headerByte => ?_
  refine (decodeObjectHeader_careful _ _).bind fun x => ?_
  obtain ⟨type,objectLength⟩ := x
  simp only
  split
  · refine Prog.Confined.bind ⟨Nat.one_pos,fun _ => trivial⟩ fun headerByte => ?_
    refine (decodeObjectHeader_careful _ _).bind fun y => ?_
    split
    · exact cleanupAndThrow_careful _
    · trivial
  · trivial

theorem readStringHeader_careful : Careful readStringHeader := by
  refine Prog.Confined.bind ⟨Nat.one_pos,fun _ => trivial⟩ fun stringLen => ?_
  split
  · exact Prog.Confined.bind ⟨Nat.succ_pos _,fun _ => trivial⟩ fun _ => trivial
  · split
    · exact Prog.Confined.bind ⟨Nat.succ_pos _,fun _ => trivial⟩ fun _ => trivial
    · split <;> trivial

theorem readArrayGroup_careful (addresses : List Nat) (cells : List Leaf) :
    Careful (readArrayGroup addresses cells) := by
  induction addresses generalizing cells with
  | nil => trivial
  | cons address rest ih => exact Prog.Confined.bind ⟨trivial,fun _ => trivial⟩ fun _ => ih _

theorem claim_careful (c : Claim) : CarefulClaims (claim c) := ⟨trivial,fun _ => trivial⟩

theorem getData_careful (n : Nat) : CarefulClaims (getData n).claimless :=
  ⟨trivial,fun _ => trivial⟩

section
variable {self : Building → ClaimingReader (Shell × Building)}
  (hself : ∀ st, CarefulClaims (self st))
include hself

theorem claimingAttributeLoop_careful (n : Nat) (st : Building) :
    CarefulClaims (claimingAttributeLoop self n st) := by
  induction n generalizing st with
  | zero => trivial
  | succ n ih =>
    refine readStringHeader_careful.claimless.bind fun nameLength => ?_
    split
    · exact (cleanupAndThrow_careful _).claimless
    · refine (claim_careful _).bind fun _ => ?_
      have hrest : ∀ name : Bytes, CarefulClaims (do
          claim .namedObject
          let (x,st) ← self st
          let (rest,st) ← claimingAttributeLoop self n st
          pure ((name,x) :: rest,st)) := fun name =>
        (claim_careful _).bind fun _ => (hself st).bind fun x => (ih x.2).bind fun _ => trivial
      split
      · exact (getData_careful _).bind hrest
      · exact hrest []

theorem claimingAttributes_careful (attrLength : Nat) (st : Building) :
    CarefulClaims (claimingAttributes self attrLength st) :=
  (claim_careful _).bind fun _ => claimingAttributeLoop_careful hself _ _

theorem claimingValues_careful (n : Nat) (st : Building) :
    CarefulClaims (claimingValues self n st) := by
  induction n generalizing st with
  | zero => trivial
  | succ n ih =>
    refine (claim_careful _).bind fun _ => (hself st).bind fun x => ?_
    exact (ih x.2).bind fun _ => trivial

theorem claimingVector_careful (ofSize : Nat → Leaf) (type : Qstype)
    (objectLength attrLength : Nat) (st : Building) :
    CarefulClaims (claimingVector self ofSize type objectLength attrLength st) := by
  refine (claim_careful _).bind fun _ => (claimingAttributes_careful hself _ _).bind fun x => ?_
  simp only
  split
  · exact (claim_careful _).bind fun _ => trivial
  · trivial

end

theorem claimingInto_careful (budget : Nat) (st : Building) :
    CarefulClaims (claimingInto budget st) := by
  induction budget generalizing st with
  | zero => exact (cleanupAndThrow_careful _).claimless
  | succ budget ih =>
    refine readObjectHeader_careful.claimless.bind fun header => ?_
    obtain ⟨type,objectLength,attrLength⟩ := header
    cases type with
    | nil => trivial
    | «attribute» => exact (cleanupAndThrow_careful _).claimless
    | list =>
      refine (claimingAttributes_careful ih _ _).bind fun x => ?_
      refine (claim_careful _).bind fun _ => (claimingValues_careful ih _ _).bind fun _ => trivial
    | _ => exact claimingVector_careful ih _ _ _ _ _

theorem claimingRecords_careful (n : Nat) : CarefulClaims (claimingRecords n) := by
  induction n with
  | zero => trivial
  | succ n ih =>
    refine readStringHeader_careful.claimless.bind fun stringLength => ?_
    split
    · exact ih.bind fun _ => trivial
    · split
      · exact ih.bind fun _ => trivial
      · refine (claim_careful _).bind fun _ => (getData_careful _).bind fun s => ?_
        split
        · exact (claim_careful _).bind fun _ => ih.bind fun _ => trivial
        · exact ih.bind fun _ => trivial

theorem claimingStringGroup_careful (addresses : List Nat) (cells : List Leaf) :
    CarefulClaims (claimingStringGroup addresses cells) := by
  induction addresses generalizing cells with
  | nil => trivial
  | cons address rest ih =>
    have hone : ∀ n, CarefulClaims (claimingStringPayloads n) := fun n =>
      (claim_careful _).bind fun _ => (claimingRecords_careful n).bind fun _ =>
        (claim_careful _).bind fun _ => trivial
    exact (hone _).bind fun _ => ih _

theorem claimingStreamRead_careful (maxDepth : Nat) :
    CarefulClaims (claimingStreamRead maxDepth) := by
  have harrays : ∀ addresses cells,
      CarefulClaims (readArrayGroup addresses cells).claimless := fun addresses cells =>
    (readArrayGroup_careful addresses cells).claimless
  refine (claimingInto_careful _ _).bind fun x => Prog.Confined.bind ?_ fun _ => trivial
  refine (claimingStringGroup_careful _ _).bind fun _ => (harrays _ _).bind fun _ => ?_
  exact (harrays _ _).bind fun _ => (harrays _ _).bind fun _ => harrays _ _

theorem streamReadWithin_sized (memory : Allocator) (maxDepth : Nat) :
    (streamReadWithin memory maxDepth).Asks GetOp.Sized := by
  rw [streamReadWithin]
  split
  · trivial
  · exact (claimingStreamRead_careful maxDepth).settle_asks _ _

end QData
