import Mathlib.Algebra.BigOperators.Group.Finset.Basic
import Mathlib.Data.List.GetD
import QData.Checksums
import QData.StringSlabs
import QData.Lib.Pacing
/-! How much the reader does: every object and string header is paid for with a byte, whatever
counts the headers claim, and every block with more than four bytes of the stream. -/
set_option autoImplicit false

namespace QData
open Words Requests

/-! The deserializer with a mark for every object header and every string header that it has
read. -/

abbrev MarkedReader (α : Type) := Prog (Option GetOp) Bytes ReadError α

def markedObjectHeader : MarkedReader (Qstype × Nat × Nat) := readObjectHeader.marked

def markedStringHeader : MarkedReader Nat := readStringHeader.marked

def markedAttributeLoop (self : Building → MarkedReader (Shell × Building)) :
    Nat → Building → MarkedReader (List (Bytes × Shell) × Building)
  | 0, st => pure ([],st)
  | n+1, st => do
      let nameLength ← markedStringHeader
      if nameLength = naStringLength then
        (cleanupAndThrow "Attribute names cannot be NA").plain
      else
        let size ← (checkedRCompatibleStringSize nameLength "attribute name length").plain
        let name ← if nameLength > 0 then (getData size).plain else pure []
        let (x,st) ← self st
        let (rest,st) ← markedAttributeLoop self n st
        pure ((name,x) :: rest,st)

def markedAttributes (self : Building → MarkedReader (Shell × Building)) (attrLength : Nat)
    (st : Building) : MarkedReader (List (Bytes × Shell) × Building) := do
  let count ← (checkedRCompatibleAttrCount attrLength).plain
  markedAttributeLoop self count st

def markedValues (self : Building → MarkedReader (Shell × Building)) :
    Nat → Building → MarkedReader (List Shell × Building)
  | 0, st => pure ([],st)
  | n+1, st => do
      let (x,st) ← self st
      let (rest,st) ← markedValues self n st
      pure (x :: rest,st)

def markedVector (self : Building → MarkedReader (Shell × Building)) (ofSize : Nat → Leaf)
    (what : String) (objectLength attrLength : Nat) (st : Building) :
    MarkedReader (Shell × Building) := do
  let size ← (checkedRCompatibleVectorSize objectLength what).plain
  let (attrs,st') ← markedAttributes self attrLength (st.allocate (ofSize size))
  pure (.vector st.cells.length attrs,st'.register st.cells.length (ofSize size))

def markedInto : Nat → Building → MarkedReader (Shell × Building)
  | 0, _ => (cleanupAndThrow "qdata nesting depth exceeds configured max_depth").plain
  | budget+1, st => do
      let (type,objectLength,attrLength) ← markedObjectHeader
      match type with
      | .nil => pure (.nil,st)
      | .logical =>
          markedVector (markedInto budget) logicalOfSize "logical vector length"
            objectLength attrLength st
      | .integer =>
          markedVector (markedInto budget) integerOfSize "integer vector length"
            objectLength attrLength st
      | .real =>
          markedVector (markedInto budget) realOfSize "real vector length"
            objectLength attrLength st
      | .complex =>
          markedVector (markedInto budget) complexOfSize "complex vector length"
            objectLength attrLength st
      | .character =>
          markedVector (markedInto budget) stringOfSize "string vector length"
            objectLength attrLength st
      | .list => do
          let (attrs,st) ← markedAttributes (markedInto budget) attrLength st
          let size ← (checkedRCompatibleVectorSize objectLength "list length").plain
          let (values,st) ← markedValues (markedInto budget) size st
          pure (.list values attrs,st)
      | .raw =>
          markedVector (markedInto budget) rawOfSize "raw vector length"
            objectLength attrLength st
      | .attribute => (cleanupAndThrow "Unsupported qdata object type").plain

def markedStringPayloads : Nat → MarkedReader (List (Option Bytes))
  | 0 => pure []
  | n+1 => do
      let stringLength ← markedStringHeader
      if stringLength = naStringLength then
        let rest ← markedStringPayloads n
        pure (none :: rest)
      else if stringLength = 0 then
        let rest ← markedStringPayloads n
        pure (some [] :: rest)
      else
        let size ← (checkedRCompatibleStringSize stringLength "string length").plain
        let s ← (getData size).plain
        let rest ← markedStringPayloads n
        pure (some s :: rest)

def markedStringGroup : List Nat → List Leaf → MarkedReader (List Leaf)
  | [], cells => pure cells
  | address :: rest, cells => do
      let records ← markedStringPayloads (cells.getD address (.raw [])).size
      markedStringGroup rest (cells.set address (.string records))

def markedObjectData (st : Building) : MarkedReader (List Leaf) := do
  let cells ← markedStringGroup st.stringPayloads st.cells
  let cells ← (readArrayGroup st.complexPayloads cells).plain
  let cells ← (readArrayGroup st.realPayloads cells).plain
  let cells ← (readArrayGroup st.integerPayloads cells).plain
  (readArrayGroup st.rawPayloads cells).plain

def markedStreamRead (maxDepth : Nat) : MarkedReader Object := do
  if maxDepth = 0 then (throwDirectly "max_depth must be at least 1").plain
  else
    let (shell,st) ← markedInto maxDepth {}
    let cells ← markedObjectData st
    pure (shell.resolve cells)

/-! Without its marks it is the deserializer. -/

section
variable {self : Building → MarkedReader (Shell × Building)}
  {self' : Building → Reader (Shell × Building)} (hself : ∀ st, (self st).unmark = self' st)
include hself

theorem markedAttributeLoop_unmark (n : Nat) (st : Building) :
    (markedAttributeLoop self n st).unmark = readAttributeLoop self' n st := by
  induction n generalizing st with
  | zero => rfl
  | succ n ih =>
    refine unmark_bind (unmark_marked _) fun nameLength => ?_
    by_cases hna : nameLength = naStringLength
    · simp only [if_pos hna]
      rfl
    simp only [if_neg hna]
    refine unmark_bind (unmark_plain _) fun size => ?_
    by_cases hlen : nameLength > 0
    · simp only [if_pos hlen]
      refine unmark_bind (unmark_plain _) fun name => ?_
      exact unmark_bind (hself st) fun x => unmark_bind (ih x.2) fun _ => rfl
    · simp only [if_neg hlen]
      refine unmark_bind rfl fun name => ?_
      exact unmark_bind (hself st) fun x => unmark_bind (ih x.2) fun _ => rfl

theorem markedAttributes_unmark (attrLength : Nat) (st : Building) :
    (markedAttributes self attrLength st).unmark = readAttributes self' attrLength st :=
  unmark_bind (unmark_plain _) fun count => markedAttributeLoop_unmark hself count st

theorem markedValues_unmark (n : Nat) (st : Building) :
    (markedValues self n st).unmark = readValues self' n st := by
  induction n generalizing st with
  | zero => rfl
  | succ n ih => exact unmark_bind (hself st) fun x => unmark_bind (ih x.2) fun _ => rfl

theorem markedVector_unmark (ofSize : Nat → Leaf) (what : String)
    (objectLength attrLength : Nat) (st : Building) :
    (markedVector self ofSize what objectLength attrLength st).unmark =
      readVector self' ofSize what objectLength attrLength st :=
  unmark_bind (unmark_plain _) fun _ =>
    unmark_bind (markedAttributes_unmark hself _ _) fun _ => rfl

end

theorem markedInto_unmark (budget : Nat) (st : Building) :
    (markedInto budget st).unmark = readInto budget st := by
  induction budget generalizing st with
  | zero => rfl
  | succ budget ih =>
    refine unmark_bind (unmark_marked _) fun header => ?_
    obtain ⟨type,objectLength,attrLength⟩ := header
    cases type with
    | nil => rfl
    | «attribute» => rfl
    | list =>
      refine unmark_bind (markedAttributes_unmark ih _ _) fun x => ?_
      refine unmark_bind (unmark_plain _) fun size => ?_
      exact unmark_bind (markedValues_unmark ih _ _) fun _ => rfl
    | _ => exact markedVector_unmark ih _ _ _ _ _

theorem markedStringPayloads_unmark (n : Nat) :
    (markedStringPayloads n).unmark = readStringPayloads n := by
  induction n with
  | zero => rfl
  | succ n ih =>
    refine unmark_bind (unmark_marked _) fun stringLength => ?_
    by_cases hna : stringLength = naStringLength
    · simp only [if_pos hna]
      exact unmark_bind ih fun _ => rfl
    by_cases hzero : stringLength = 0
    · simp only [if_neg hna,if_pos hzero]
      exact unmark_bind ih fun _ => rfl
    simp only [if_neg hna,if_neg hzero]
    refine unmark_bind (unmark_plain _) fun size => ?_
    exact unmark_bind (unmark_plain _) fun s => unmark_bind ih fun _ => rfl

theorem markedStringGroup_unmark (addresses : List Nat) (cells : List Leaf) :
    (markedStringGroup addresses cells).unmark = readStringGroup addresses cells := by
  induction addresses generalizing cells with
  | nil => rfl
  | cons address rest ih =>
    exact unmark_bind (markedStringPayloads_unmark _) fun records => ih _

theorem markedObjectData_unmark (st : Building) :
    (markedObjectData st).unmark = readObjectData st := by
  refine unmark_bind (markedStringGroup_unmark _ _) fun cells => ?_
  refine unmark_bind (unmark_plain _) fun cells => ?_
  refine unmark_bind (unmark_plain _) fun cells => ?_
  exact unmark_bind (unmark_plain _) fun cells => unmark_plain _

theorem markedStreamRead_unmark (maxDepth : Nat) :
    (markedStreamRead maxDepth).unmark = streamRead maxDepth := by
  by_cases h : maxDepth = 0
  · simp only [markedStreamRead,streamRead,if_pos h]
    rfl
  simp only [markedStreamRead,streamRead,if_neg h]
  refine unmark_bind (markedInto_unmark _ _) fun x => ?_
  exact unmark_bind (markedObjectData_unmark _) fun cells => rfl

/-! What is built, and what it takes. -/

def Leaf.records : Leaf → Nat
  | .string xs => xs.length
  | _ => 0

mutual
/-- All objects, attributes and string records in an object, itself included. -/
def Object.built : Object → Nat
  | .nil => 1
  | .vector leaf attrs => 1+leaf.records+attrsBuilt attrs
  | .list values attrs => 1+attrsBuilt attrs+valuesBuilt values

def attrsBuilt : List (Bytes × Object) → Nat
  | [] => 0
  | (_,x) :: rest => 1+x.built+attrsBuilt rest

def valuesBuilt : List Object → Nat
  | [] => 0
  | x :: rest => x.built+valuesBuilt rest
end

mutual
def Shell.headers : Shell → Nat
  | .nil => 1
  | .vector _ attrs => 1+shellAttrsHeaders attrs
  | .list values attrs => 1+shellAttrsHeaders attrs+shellValuesHeaders values

def shellAttrsHeaders : List (Bytes × Shell) → Nat
  | [] => 0
  | (_,x) :: rest => 1+x.headers+shellAttrsHeaders rest

def shellValuesHeaders : List Shell → Nat
  | [] => 0
  | x :: rest => x.headers+shellValuesHeaders rest
end

mutual
def Shell.sum (f : Nat → Nat) : Shell → Nat
  | .nil => 0
  | .vector address attrs => f address+shellAttrsSum f attrs
  | .list values attrs => shellAttrsSum f attrs+shellValuesSum f values

def shellAttrsSum (f : Nat → Nat) : List (Bytes × Shell) → Nat
  | [] => 0
  | (_,x) :: rest => x.sum f+shellAttrsSum f rest

def shellValuesSum (f : Nat → Nat) : List Shell → Nat
  | [] => 0
  | x :: rest => x.sum f+shellValuesSum f rest
end

def recordsAt (cells : List Leaf) (address : Nat) : Nat := (cells.getD address (.raw [])).records

mutual
theorem resolve_built (cells : List Leaf) : (x : Shell) →
    (x.resolve cells).built = x.headers+x.sum (recordsAt cells)
  | .nil => rfl
  | .vector address attrs => by
      have h := resolveAttrs_built cells attrs
      simp only [Shell.resolve,Object.built,Shell.headers,Shell.sum,recordsAt] at h ⊢
      omega
  | .list values attrs => by
      have h := resolveAttrs_built cells attrs
      have h' := resolveValues_built cells values
      simp only [Shell.resolve,Object.built,Shell.headers,Shell.sum] at h h' ⊢
      omega

theorem resolveAttrs_built (cells : List Leaf) : (attrs : List (Bytes × Shell)) →
    attrsBuilt (resolveAttrs cells attrs) =
      shellAttrsHeaders attrs+shellAttrsSum (recordsAt cells) attrs
  | [] => rfl
  | (name,x) :: rest => by
      have h := resolve_built cells x
      have h' := resolveAttrs_built cells rest
      simp only [resolveAttrs,attrsBuilt,shellAttrsHeaders,shellAttrsSum] at h h' ⊢
      omega

theorem resolveValues_built (cells : List Leaf) : (values : List Shell) →
    valuesBuilt (resolveValues cells values) =
      shellValuesHeaders values+shellValuesSum (recordsAt cells) values
  | [] => rfl
  | x :: rest => by
      have h := resolve_built cells x
      have h' := resolveValues_built cells rest
      simp only [resolveValues,valuesBuilt,shellValuesHeaders,shellValuesSum] at h h' ⊢
      omega
end

/-! The vectors that the header pass has resized and queued. -/

def Building.Queued (st : Building) : Prop :=
  ∀ g, ∀ address ∈ st.queue g, (st.cells.getD address (.raw [])).group = g ∧
    0 < (st.cells.getD address (.raw [])).size

def Building.queuedRecords (st : Building) : Nat :=
  (st.stringPayloads.map (recordsAt st.cells)).sum

def Building.records (st : Building) : Nat :=
  ∑ i ∈ Finset.range st.cells.length, recordsAt st.cells i

/-- What reading an object adds to the cells and the queues: the vectors of `sum`, each one
once. -/
structure Adds (st : Building) (sum : (Nat → Nat) → Nat) (st' : Building) : Prop where
  grown : st.cells <+: st'.cells
  queued : st'.Queued
  records : st'.queuedRecords+st.records = st.queuedRecords+st'.records
  places : ∀ f, sum f+∑ i ∈ Finset.range st.cells.length, f i =
    ∑ i ∈ Finset.range st'.cells.length, f i

theorem getD_grown {cells cells' : List Leaf} (h : cells <+: cells') {address : Nat}
    (ha : address < cells.length) :
    cells'.getD address (.raw []) = cells.getD address (.raw []) := by
  obtain ⟨more,rfl⟩ := h
  exact List.getD_append _ _ _ _ ha

theorem lt_of_size {cells : List Leaf} {address : Nat}
    (h : 0 < (cells.getD address (.raw [])).size) : address < cells.length := by
  by_contra hge
  rw [List.getD_eq_default _ _ (Nat.le_of_not_lt hge)] at h
  exact Nat.lt_irrefl 0 h

section
variable {st st' st'' : Building}

theorem Building.Queued.grown (h : st.Queued) (hq : ∀ g, st'.queue g = st.queue g)
    (hc : st.cells <+: st'.cells) : st'.Queued := by
  intro g address ha
  rw [hq] at ha
  obtain ⟨hg,hs⟩ := h g address ha
  rw [getD_grown hc (lt_of_size hs)]
  exact ⟨hg,hs⟩

theorem allocate_grown (st : Building) (leaf : Leaf) : st.cells <+: (st.allocate leaf).cells :=
  List.prefix_append ..

theorem Building.Queued.allocate (h : st.Queued) (leaf : Leaf) : (st.allocate leaf).Queued :=
  h.grown (st.queue_allocate leaf) (allocate_grown st leaf)

theorem queuedRecords_grown (h : st.Queued) {cells : List Leaf} (hc : st.cells <+: cells) :
    st.stringPayloads.map (recordsAt cells) = st.stringPayloads.map (recordsAt st.cells) := by
  refine List.map_congr_left fun address ha => ?_
  have hs := (h .string address ha).2
  rw [recordsAt,getD_grown hc (lt_of_size hs),recordsAt]

theorem records_allocate (st : Building) (leaf : Leaf) :
    (st.allocate leaf).records = st.records+leaf.records := by
  unfold Building.records
  have hlen : (st.allocate leaf).cells.length = st.cells.length+1 := by simp [Building.allocate]
  have hlast : recordsAt (st.allocate leaf).cells st.cells.length = leaf.records := by
    simp [recordsAt,Building.allocate]
  rw [hlen,Finset.sum_range_succ,hlast]
  refine congrArg (·+leaf.records) (Finset.sum_congr rfl fun i hi => ?_)
  rw [recordsAt,getD_grown (allocate_grown st leaf) (Finset.mem_range.mp hi),recordsAt]

theorem Adds.refl (h : st.Queued) : Adds st (fun _ => 0) st :=
  ⟨List.prefix_refl _,h,rfl,fun _ => Nat.zero_add _⟩

theorem Adds.trans {sum sum' : (Nat → Nat) → Nat} (h : Adds st sum st')
    (h' : Adds st' sum' st'') : Adds st (fun f => sum f+sum' f) st'' where
  grown := h.grown.trans h'.grown
  queued := h'.queued
  records := by
    have h1 := h.records
    have h2 := h'.records
    omega
  places f := by
    have h1 := h.places f
    have h2 := h'.places f
    omega

theorem Adds.vector {leaf : Leaf} {sum : (Nat → Nat) → Nat} (hst : st.Queued)
    (h : Adds (st.allocate leaf) sum st') :
    Adds st (fun f => f st.cells.length+sum f) (st'.register st.cells.length leaf) := by
  have hgrown : st.cells <+: st'.cells := (allocate_grown st leaf).trans h.grown
  have hlast : st'.cells.getD st.cells.length (.raw []) = leaf := by
    rw [getD_grown h.grown (by simp [Building.allocate])]
    simp [Building.allocate]
  refine ⟨by simpa using hgrown,?_,?_,fun f => ?_⟩
  · intro g address ha
    rw [Building.queue_register,List.mem_append] at ha
    rw [Building.cells_register]
    rcases ha with ha | ha
    · exact h.queued g address ha
    · split at ha
      · next hleaf =>
        rw [List.mem_singleton.mp ha,hlast]
        exact hleaf.symm
      · cases ha
  · have hqueued : (st'.register st.cells.length leaf).queuedRecords =
        st'.queuedRecords+leaf.records := by
      have hq : (st'.register st.cells.length leaf).stringPayloads = st'.stringPayloads ++
          if 0 < leaf.size ∧ leaf.group = .string then [st.cells.length] else [] :=
        st'.queue_register st.cells.length leaf .string
      rw [Building.queuedRecords,Building.cells_register,hq,List.map_append,List.sum_append,
        Building.queuedRecords]
      have hrec : recordsAt st'.cells st.cells.length = leaf.records := by rw [recordsAt,hlast]
      congr 1
      split
      · simp [hrec]
      · next hnot =>
        cases leaf with
        | string xs =>
          have hnil : xs = [] := by simpa [Leaf.size,Leaf.group] using hnot
          rw [hnil]
          rfl
        | _ => rfl
    have hrecords : (st'.register st.cells.length leaf).records = st'.records := by
      simp [Building.records]
    have hallocated : (st.allocate leaf).queuedRecords = st.queuedRecords :=
      congrArg List.sum (queuedRecords_grown hst (allocate_grown st leaf))
    have h1 := h.records
    rw [records_allocate,hallocated] at h1
    omega
  · have hp := h.places f
    have hlen : (st.allocate leaf).cells.length = st.cells.length+1 := by simp [Building.allocate]
    rw [hlen,Finset.sum_range_succ] at hp
    simp only [Building.cells_register]
    omega

end

/-! A byte for every header, and one for every request. -/

theorem markedObjectHeader_paced {m b : Nat} (hm : m ≤ b) :
    markedObjectHeader.Paced GetOp.size (fun _ m' => m' = m+1) m b :=
  Prog.Asks.paced (i := GetOp.pod 1) (readObjectHeader_asks (fun _ h _ => h) fun _ h _ => h) hm

theorem markedStringHeader_paced {m b : Nat} (hm : m ≤ b) :
    markedStringHeader.Paced GetOp.size (fun _ m' => m' = m+1) m b :=
  Prog.Asks.paced (i := GetOp.pod 1) (readStringHeader_asks (fun _ h _ => h) fun _ h _ => h) hm

theorem checkedSize_paced (value limit : Nat) (msg : String) (m b : Nat) :
    (if value > limit then throwDirectly msg else pure value : Reader Nat).plain.Paced GetOp.size
      (fun size m' => size = value ∧ m' = m) m b := by
  refine Prog.Vouches.paced ?_
  split
  · trivial
  · rfl

theorem getData_paced {len : Nat} (h : 0 < len) (m b : Nat) :
    (getData len).plain.Paced GetOp.size (fun _ m' => m' = m) m b :=
  ⟨h,fun _ => rfl⟩

/-- Reading an object makes a mark for every object and attribute, and adds the vectors. -/
def PacedObject (self : Building → MarkedReader (Shell × Building)) : Prop :=
  ∀ st m b, st.Queued → m ≤ b → (self st).Paced GetOp.size
    (fun x m' => m' = m+x.1.headers ∧ Adds st (fun f => x.1.sum f) x.2) m b

section
variable {self : Building → MarkedReader (Shell × Building)} (hself : PacedObject self)
include hself

theorem markedAttributeLoop_paced (n : Nat) {st : Building} (hst : st.Queued) {m b : Nat}
    (hm : m ≤ b) : (markedAttributeLoop self n st).Paced GetOp.size
      (fun x m' => m' = m+shellAttrsHeaders x.1 ∧ Adds st (fun f => shellAttrsSum f x.1) x.2)
      m b := by
  induction n generalizing st m b with
  | zero => exact ⟨rfl,.refl hst⟩
  | succ n ih =>
    refine (markedStringHeader_paced hm).bind hm fun nameLength m₁ b₁ hm₁ hmark => ?_
    by_cases hna : nameLength = naStringLength
    · simp only [if_pos hna]
      trivial
    simp only [if_neg hna]
    refine (checkedSize_paced _ _ _ m₁ b₁).bind hm₁ fun size m₂ b₂ hm₂ hsize => ?_
    obtain ⟨rfl,rfl⟩ := hsize
    have hrest : ∀ (name : Bytes) b₃, m₂ ≤ b₃ → (do
        let (x,st) ← self st
        let (rest,st) ← markedAttributeLoop self n st
        pure ((name,x) :: rest,st) : MarkedReader _).Paced GetOp.size
          (fun x m' => m' = m+shellAttrsHeaders x.1 ∧ Adds st (fun f => shellAttrsSum f x.1) x.2)
          m₂ b₃ := by
      intro name b₃ hm₃
      refine (hself st m₂ b₃ hst hm₃).bind hm₃ fun x m₄ b₄ hm₄ hx => ?_
      refine (ih hx.2.queued hm₄).bind hm₄ fun y m₅ b₅ hm₅ hy => ?_
      refine ⟨?_,hx.2.trans hy.2⟩
      have h1 := hx.1
      have h2 := hy.1
      rw [shellAttrsHeaders]
      omega
    by_cases hlen : size > 0
    · simp only [if_pos hlen]
      refine (getData_paced hlen _ _).bind hm₂ fun name m₃ b₃ hm₃ hdata => ?_
      subst hdata
      exact hrest name b₃ hm₃
    · simp only [if_neg hlen]
      exact hrest [] b₂ hm₂

theorem markedAttributes_paced (attrLength : Nat) {st : Building} (hst : st.Queued) {m b : Nat}
    (hm : m ≤ b) : (markedAttributes self attrLength st).Paced GetOp.size
      (fun x m' => m' = m+shellAttrsHeaders x.1 ∧ Adds st (fun f => shellAttrsSum f x.1) x.2)
      m b := by
  refine (checkedSize_paced _ _ _ m b).bind hm fun count m₁ b₁ hm₁ hcount => ?_
  obtain ⟨-,rfl⟩ := hcount
  exact markedAttributeLoop_paced hself count hst hm₁

theorem markedValues_paced (n : Nat) {st : Building} (hst : st.Queued) {m b : Nat}
    (hm : m ≤ b) : (markedValues self n st).Paced GetOp.size
      (fun x m' => m' = m+shellValuesHeaders x.1 ∧ Adds st (fun f => shellValuesSum f x.1) x.2)
      m b := by
  induction n generalizing st m b with
  | zero => exact ⟨rfl,.refl hst⟩
  | succ n ih =>
    refine (hself st m b hst hm).bind hm fun x m₁ b₁ hm₁ hx => ?_
    refine (ih hx.2.queued hm₁).bind hm₁ fun y m₂ b₂ hm₂ hy => ?_
    refine ⟨?_,hx.2.trans hy.2⟩
    have h1 := hx.1
    have h2 := hy.1
    rw [shellValuesHeaders]
    omega

theorem markedVector_paced (ofSize : Nat → Leaf) (what : String) (objectLength attrLength : Nat)
    {st : Building} (hst : st.Queued) {m b : Nat} (hm : m ≤ b) :
    (markedVector self ofSize what objectLength attrLength st).Paced GetOp.size
      (fun x m' => m'+1 = m+x.1.headers ∧ Adds st (fun f => x.1.sum f) x.2) m b := by
  refine (checkedSize_paced _ _ _ m b).bind hm fun size m₁ b₁ hm₁ hsize => ?_
  obtain ⟨-,rfl⟩ := hsize
  refine (markedAttributes_paced hself attrLength (hst.allocate _) hm₁).bind hm₁
    fun x m₂ b₂ hm₂ hx => ?_
  refine ⟨?_,hx.2.vector hst⟩
  have h1 := hx.1
  rw [Shell.headers]
  omega

end

theorem markedInto_paced (budget : Nat) : PacedObject (markedInto budget) := by
  induction budget with
  | zero => exact fun _ _ _ _ _ => trivial
  | succ budget ih =>
    intro st m b hst hm
    refine (markedObjectHeader_paced hm).bind hm fun header m₁ b₁ hm₁ hmark => ?_
    obtain ⟨type,objectLength,attrLength⟩ := header
    have hvector : ∀ (ofSize : Nat → Leaf) (what : String),
        (markedVector (markedInto budget) ofSize what objectLength attrLength st).Paced GetOp.size
          (fun x m' => m' = m+x.1.headers ∧ Adds st (fun f => x.1.sum f) x.2) m₁ b₁ := by
      intro ofSize what
      refine (markedVector_paced ih ofSize what objectLength attrLength hst hm₁).mono
        fun x m₂ hx => ⟨?_,hx.2⟩
      have h1 := hx.1
      omega
    cases type with
    | nil => exact ⟨hmark,.refl hst⟩
    | «attribute» => trivial
    | list =>
      refine (markedAttributes_paced ih attrLength hst hm₁).bind hm₁ fun x m₂ b₂ hm₂ hx => ?_
      refine (checkedSize_paced _ _ _ m₂ b₂).bind hm₂ fun size m₃ b₃ hm₃ hsize => ?_
      obtain ⟨-,rfl⟩ := hsize
      refine (markedValues_paced ih size hx.2.queued hm₃).bind hm₃ fun y m₄ b₄ hm₄ hy => ?_
      refine ⟨?_,hx.2.trans hy.2⟩
      have h1 := hx.1
      have h2 := hy.1
      rw [Shell.headers]
      omega
    | _ => exact hvector _ _

/-! The payload pass: vectors change neither type nor size. -/

def Leaf.kind (leaf : Leaf) : Group × Nat := (leaf.group,leaf.size)

def SameKinds (cells cells' : List Leaf) : Prop :=
  ∀ address, (cells'.getD address (.raw [])).kind = (cells.getD address (.raw [])).kind

theorem SameKinds.trans {cells cells' cells'' : List Leaf} (h : SameKinds cells cells')
    (h' : SameKinds cells' cells'') : SameKinds cells cells'' :=
  fun address => (h' address).trans (h address)

theorem sameKinds_set {cells : List Leaf} {address : Nat} {leaf : Leaf}
    (h : leaf.kind = (cells.getD address (.raw [])).kind) :
    SameKinds cells (cells.set address leaf) := by
  intro i
  simp only [List.getD_eq_getElem?_getD,List.getElem?_set] at h ⊢
  by_cases hi : address = i
  · subst hi
    by_cases hlt : address < cells.length
    · simpa [hlt] using h
    · simp [hlt]
  · simp [hi]

theorem Leaf.kind_fill (leaf : Leaf) (bs : Bytes) : (leaf.fill bs).kind = leaf.kind := by
  cases leaf <;> simp [Leaf.fill,Leaf.kind,Leaf.group,Leaf.size]

theorem Leaf.records_of_kind {leaf leaf' : Leaf} (h : leaf.kind = leaf'.kind) :
    leaf.records = leaf'.records := by
  cases leaf <;> cases leaf' <;> simp_all [Leaf.kind,Leaf.group,Leaf.size,Leaf.records]

theorem Leaf.records_string {leaf : Leaf} (h : leaf.group = .string) :
    leaf.records = leaf.size := by
  obtain ⟨xs,rfl⟩ := string_of_group h
  rfl

theorem Leaf.byteSize_pos {leaf : Leaf} (h : leaf.group ≠ .string) (hs : 0 < leaf.size) :
    0 < leaf.byteSize := by
  cases leaf with
  | string xs => exact absurd rfl h
  | _ => simp_all [Leaf.size,Leaf.byteSize]

def QueuedIn (g : Group) (addresses : List Nat) (cells : List Leaf) : Prop :=
  ∀ address ∈ addresses, (cells.getD address (.raw [])).group = g ∧
    0 < (cells.getD address (.raw [])).size

theorem QueuedIn.sameKinds {g : Group} {addresses : List Nat} {cells cells' : List Leaf}
    (h : QueuedIn g addresses cells) (hk : SameKinds cells cells') :
    QueuedIn g addresses cells' := by
  intro address ha
  obtain ⟨hg,hs⟩ := h address ha
  obtain ⟨hg',hs'⟩ := Prod.mk.inj (hk address)
  rw [hg',hs']
  exact ⟨hg,hs⟩

theorem readArrayGroup_vouches {g : Group} (hg : g ≠ .string) {addresses : List Nat}
    {cells : List Leaf} (h : QueuedIn g addresses cells) :
    (readArrayGroup addresses cells).Vouches (fun op => 0 < op.size) (SameKinds cells) := by
  induction addresses generalizing cells with
  | nil => exact fun _ => rfl
  | cons address rest ih =>
    obtain ⟨hgroup,hsize⟩ := h address List.mem_cons_self
    refine ⟨Leaf.byteSize_pos (hgroup ▸ hg) hsize,fun bs => ?_⟩
    have hset := sameKinds_set (Leaf.kind_fill (cells.getD address (.raw [])) bs)
    have hrest : QueuedIn g rest cells := fun a ha => h a (List.mem_cons_of_mem _ ha)
    exact (ih (hrest.sameKinds hset)).mono fun cells' hc => hset.trans hc

theorem readArrayGroup_paced {g : Group} (hg : g ≠ .string) {addresses : List Nat}
    {cells : List Leaf} (h : QueuedIn g addresses cells) (m b : Nat) :
    (readArrayGroup addresses cells).plain.Paced GetOp.size
      (fun cells' m' => SameKinds cells cells' ∧ m' = m) m b :=
  (readArrayGroup_vouches hg h).paced

theorem markedStringPayloads_paced (n : Nat) {m b : Nat} (hm : m ≤ b) :
    (markedStringPayloads n).Paced GetOp.size (fun xs m' => xs.length = n ∧ m' = m+n) m b := by
  induction n generalizing m b with
  | zero => exact ⟨rfl,rfl⟩
  | succ n ih =>
    refine (markedStringHeader_paced hm).bind hm fun stringLength m₁ b₁ hm₁ hmark => ?_
    subst hmark
    have hrest : ∀ (r : Option Bytes) b₂, m+1 ≤ b₂ → (markedStringPayloads n >>= fun rest =>
        pure (r :: rest) : MarkedReader _).Paced GetOp.size
          (fun xs m' => xs.length = n+1 ∧ m' = m+(n+1)) (m+1) b₂ := by
      intro r b₂ hm₂
      refine (ih hm₂).bind hm₂ fun rest m₃ b₃ hm₃ h => ?_
      refine ⟨congrArg (·+1) h.1,?_⟩
      have h1 := h.2
      omega
    by_cases hna : stringLength = naStringLength
    · simp only [if_pos hna]
      exact hrest none b₁ hm₁
    by_cases hzero : stringLength = 0
    · simp only [if_neg hna,if_pos hzero]
      exact hrest (some []) b₁ hm₁
    simp only [if_neg hna,if_neg hzero]
    refine (checkedSize_paced _ _ _ (m+1) b₁).bind hm₁ fun size m₂ b₂ hm₂ hsize => ?_
    obtain ⟨rfl,rfl⟩ := hsize
    refine (getData_paced (Nat.pos_of_ne_zero hzero) _ _).bind hm₂ fun s m₃ b₃ hm₃ hdata => ?_
    subst hdata
    exact hrest (some s) b₃ hm₃

theorem markedStringGroup_paced {addresses : List Nat} {cells : List Leaf}
    (h : QueuedIn .string addresses cells) {m b : Nat} (hm : m ≤ b) :
    (markedStringGroup addresses cells).Paced GetOp.size (fun cells' m' =>
      SameKinds cells cells' ∧ m' = m+(addresses.map (recordsAt cells)).sum) m b := by
  induction addresses generalizing cells m b with
  | nil => exact ⟨fun _ => rfl,rfl⟩
  | cons address rest ih =>
    obtain ⟨hgroup,-⟩ := h address List.mem_cons_self
    refine (markedStringPayloads_paced _ hm).bind hm fun records m₁ b₁ hm₁ hr => ?_
    obtain ⟨hlen,rfl⟩ := hr
    have hset : SameKinds cells (cells.set address (.string records)) :=
      sameKinds_set (Prod.ext hgroup.symm hlen)
    have hrest : QueuedIn .string rest cells := fun a ha => h a (List.mem_cons_of_mem _ ha)
    refine (ih (hrest.sameKinds hset) hm₁).mono fun cells' m₂ hc => ⟨hset.trans hc.1,?_⟩
    have hsame : rest.map (recordsAt (cells.set address (.string records))) =
        rest.map (recordsAt cells) :=
      List.map_congr_left fun a _ => Leaf.records_of_kind (hset a)
    have h1 := hc.2
    rw [hsame] at h1
    rw [List.map_cons,List.sum_cons,recordsAt,Leaf.records_string hgroup]
    omega

theorem markedObjectData_paced {st : Building} (hst : st.Queued) {m b : Nat} (hm : m ≤ b) :
    (markedObjectData st).Paced GetOp.size (fun cells m' =>
      SameKinds st.cells cells ∧ m' = m+st.queuedRecords) m b := by
  have hstring : QueuedIn .string st.stringPayloads st.cells := hst .string
  have hcomplex : QueuedIn .complex st.complexPayloads st.cells := hst .complex
  have hreal : QueuedIn .real st.realPayloads st.cells := hst .real
  have hinteger : QueuedIn .integer st.integerPayloads st.cells := hst .integer
  have hraw : QueuedIn .raw st.rawPayloads st.cells := hst .raw
  refine (markedStringGroup_paced hstring hm).bind hm fun cells₁ m₁ b₁ hm₁ h₁ => ?_
  obtain ⟨hk₁,hmarks⟩ := h₁
  refine (readArrayGroup_paced (g := .complex) nofun (hcomplex.sameKinds hk₁) m₁ b₁).bind hm₁
    fun cells₂ m₂ b₂ hm₂ h₂ => ?_
  obtain ⟨hk₂,rfl⟩ := h₂
  have hk := hk₁.trans hk₂
  refine (readArrayGroup_paced (g := .real) nofun (hreal.sameKinds hk) m₂ b₂).bind hm₂
    fun cells₃ m₃ b₃ hm₃ h₃ => ?_
  obtain ⟨hk₃,rfl⟩ := h₃
  have hk := hk.trans hk₃
  refine (readArrayGroup_paced (g := .integer) nofun (hinteger.sameKinds hk) m₃ b₃).bind hm₃
    fun cells₄ m₄ b₄ hm₄ h₄ => ?_
  obtain ⟨hk₄,rfl⟩ := h₄
  have hk := hk.trans hk₄
  refine (readArrayGroup_paced (g := .raw) nofun (hraw.sameKinds hk) m₄ b₄).mono
    fun cells₅ m₅ h₅ => ?_
  obtain ⟨hk₅,rfl⟩ := h₅
  exact ⟨hk.trans hk₅,hmarks⟩

/-- The marks of a read are the objects, attributes and string records of its object. -/
theorem markedStreamRead_paced (maxDepth : Nat) :
    (markedStreamRead maxDepth).Paced GetOp.size (fun o m' => o.built = m') 0 0 := by
  by_cases h : maxDepth = 0
  · simp only [markedStreamRead,if_pos h]
    trivial
  simp only [markedStreamRead,if_neg h]
  have hempty : ({} : Building).Queued := by
    intro g address ha
    rw [Building.queue_empty] at ha
    cases ha
  refine (markedInto_paced maxDepth {} 0 0 hempty (Nat.le_refl 0)).bind (Nat.le_refl 0)
    fun x m₁ b₁ hm₁ hx => ?_
  obtain ⟨hheaders,hadds⟩ := hx
  refine (markedObjectData_paced hadds.queued hm₁).bind hm₁ fun cells m₂ b₂ hm₂ hc => ?_
  obtain ⟨hkinds,hrecords⟩ := hc
  have hsame : recordsAt cells = recordsAt x.2.cells :=
    funext fun i => Leaf.records_of_kind (hkinds i)
  have hplaces := hadds.places (recordsAt x.2.cells)
  have hqueued := hadds.records
  change _+0 = x.2.records at hplaces
  change _+0 = 0+x.2.records at hqueued
  change (x.1.resolve cells).built = m₂
  rw [resolve_built,hsame]
  omega

/-! Blocks, and the stream that they are taken from. -/

theorem decompressNext_advances {dp : Decompressor} {stream rest : Bytes} {b : Block}
    (h : decompressNext dp stream = .ok (b,rest)) :
    rest <:+ stream ∧ rest.length+4 < stream.length ∧ b.1 ≠ [] := by
  obtain ⟨zsize,zbytes,hz,hne,hb⟩ := decompressNext_ok h
  have hsplit := readZblock_split hz
  have hzbytes : zbytes ≠ [] := by
    rintro rfl
    exact hne (hb ▸ dp.nothing zsize)
  have hpos := List.length_pos_iff.mpr hzbytes
  refine ⟨⟨_,hsplit.symm⟩,?_,hne⟩
  have hlen := congrArg List.length hsplit
  simp only [List.length_append,length_toBytes] at hlen
  omega

theorem feed_length (dp : Decompressor) (stream : Bytes) :
    ((streamSource dp).feed stream).bytes.length ≤ maxBlocksize*(stream.length/5) := by
  induction hn : stream.length using Nat.strongRecOn generalizing stream with
  | ind n ih =>
    cases hf : (streamSource dp).fetch stream with
    | error e =>
      rw [BlockSource.feed_error hf]
      exact Nat.zero_le _
    | ok x =>
      obtain ⟨b,rest⟩ := x
      obtain ⟨-,hlt,-⟩ := decompressNext_advances hf
      have hnext := ih rest.length (by omega) rest rfl
      have hquot : rest.length/5+1 ≤ n/5 := by omega
      have hmul := Nat.mul_le_mul_left maxBlocksize hquot
      have hb := b.2
      rw [BlockSource.feed_ok hf,Feed.bytes,List.map_cons,List.flatten_cons,List.length_append]
      rw [Nat.mul_add,Nat.mul_one] at hmul
      exact Nat.le_trans (Nat.add_le_add hb hnext) (by omega)

namespace BlockReader
variable {σ : Type} (S : BlockSource σ)

/-- The loop of `get_data`, unless it has more than `n` rounds to go. -/
def getDataLoopFor (keep : Bytes → Bytes → Bytes) (len : Nat) :
    Nat → Bytes → Nat → BlockReader σ →
      Option (Except (Halt ReadError) (Bytes × Nat × BlockReader σ))
  | 0, out, bytesAccounted, st =>
      if len - bytesAccounted ≥ maxBlocksize then none else some (.ok (out,bytesAccounted,st))
  | n+1, out, bytesAccounted, st =>
      if len - bytesAccounted ≥ maxBlocksize then
        match S.fetch st.source with
        | .error e => some (.error e)
        | .ok (b,source) =>
            if b.1.length ≠ maxBlocksize then some (.error corrupted)
            else
              getDataLoopFor keep len n (writeAt out bytesAccounted b.1)
                ((bytesAccounted+maxBlocksize) % 2 ^ 32)
                ⟨source,keep st.block b.1,b.1.length,maxBlocksize⟩
      else some (.ok (out,bytesAccounted,st))

variable {S}

theorem getDataLoopFor_eq (measure : σ → Nat)
    (hm : ∀ s b s', S.fetch s = .ok (b,s') → measure s' < measure s)
    {keep : Bytes → Bytes → Bytes} {len n : Nat} {out : Bytes} {acc : Nat} {st : BlockReader σ}
    (hn : measure st.source < n) :
    getDataLoopFor S keep len n out acc st = some (getDataLoop S keep len out acc st) := by
  induction n generalizing out acc st with
  | zero => cases hn
  | succ n ih =>
    rw [getDataLoopFor]
    by_cases hlen : len - acc ≥ maxBlocksize
    · rw [if_pos hlen]
      cases hf : S.fetch st.source with
      | error e => rw [getDataLoop_error hlen hf]
      | ok x =>
        obtain ⟨b,source⟩ := x
        rw [getDataLoop_block hlen hf]
        simp only
        split
        · rfl
        · exact ih (Nat.lt_of_lt_of_le (hm _ _ _ hf) (Nat.le_of_lt_succ hn))
    · rw [if_neg hlen,getDataLoop_done hlen]

end BlockReader

/-- What a read on a stream gets done, in its order: headers, and requests with their
answers. -/
def readEvents (dp : Decompressor) (stream : Bytes) (maxDepth : Nat) : List (Option Bytes) :=
  (markedStreamRead maxDepth).events (blockCompressReader (streamSource dp)) (.start stream)

/-- The decompressed bytes that were consumed are the first of the stream's. -/
theorem consumed_prefix (dp : Decompressor) (stream : Bytes) (maxDepth : Nat) :
    (answered (readEvents dp stream maxDepth)).flatten <+:
      ((streamSource dp).feed stream).bytes := by
  rw [readEvents,answered_events]
  refine answers_prefix (R := fun st xs => ∃ c, Shows st c ∧
    xs = (c.unroll (streamSource dp)).bytes) ?_ _ ⟨.start stream,Shows.start stream,rfl⟩
  rintro op st _ bs st' ⟨c,hc,rfl⟩ hop
  obtain ⟨c',hc',hchannel⟩ := shows_channel (blockCompressReader_cursor _) hc hop
  exact ⟨_,(channel_eq_ok.mp hchannel).2,c',hc',rfl⟩

/-- Whatever counts the headers of a stream claim, its reading ends after as many requests as
the blocks have bytes. At any time as many object and string headers have been read as bytes
were consumed, or fewer; an object that is returned has an object, an attribute or a string
record for each of them. Every block takes more than four bytes of the stream and has one. -/
theorem decoding_bounded (dp : Decompressor) (stream : Bytes) (maxDepth : Nat) :
    (markedStreamRead maxDepth).unmark = streamRead maxDepth ∧
    (∀ front, front <+: readEvents dp stream maxDepth →
      marks front ≤ (answered front).flatten.length ∧
        (answered front).length ≤ (answered front).flatten.length) ∧
    (answered (readEvents dp stream maxDepth)).flatten <+:
      ((streamSource dp).feed stream).bytes ∧
    ((streamSource dp).feed stream).bytes.length ≤ maxBlocksize*(stream.length/5) ∧
    (∀ o, readSingleThread dp stream maxDepth = .ok o →
      o.built = marks (readEvents dp stream maxDepth)) ∧
    (∀ n, maxBlocksize*(stream.length/5) < n →
      (streamRead maxDepth).runFor (blockCompressReader (streamSource dp)) n (.start stream) =
        some ((streamRead maxDepth).run (blockCompressReader (streamSource dp)) (.start stream))) ∧
    (∀ keep len out acc (st : BlockReader Bytes) n, st.source.length/5 < n →
      BlockReader.getDataLoopFor (streamSource dp) keep len n out acc st =
        some (BlockReader.getDataLoop (streamSource dp) keep len out acc st)) ∧
    ∀ s b rest, decompressNext dp s = .ok (b,rest) →
      rest <:+ s ∧ rest.length+4 < s.length ∧ b.1 ≠ [] := by
  have hexact := answersExactly_of_shows (blockCompressReader_cursor (streamSource dp))
  have hshown : Shown (BlockReader.start stream) := ⟨_,Shows.start stream⟩
  have hpaced := markedStreamRead_paced maxDepth
  have htimes : ∀ front, front <+: readEvents dp stream maxDepth →
      marks front ≤ (answered front).flatten.length ∧
        (answered front).length ≤ (answered front).flatten.length := by
    intro front hfront
    have h := events_paced hexact hpaced (Nat.le_refl 0) hshown hfront
    simpa using h
  have hconsumed := consumed_prefix dp stream maxDepth
  have hfeed := feed_length dp stream
  refine ⟨markedStreamRead_unmark maxDepth,htimes,hconsumed,hfeed,?_,?_,?_,
    fun _ _ _ => decompressNext_advances⟩
  · intro o ho
    rw [readSingleThread] at ho
    cases hr : (streamRead maxDepth).run (blockCompressReader (streamSource dp))
        (.start stream) with
    | error e =>
      rw [hr] at ho
      cases ho
    | ok x =>
      rw [hr] at ho
      cases ho
      rw [← markedStreamRead_unmark maxDepth] at hr
      have hbuilt := run_paced hpaced hr
      rwa [Nat.zero_add] at hbuilt
  · intro n hn
    refine runFor_answers ?_
    have hrequests := (htimes _ (List.prefix_refl _)).2
    have hbytes := hconsumed.length_le
    rw [readEvents,answered_events,markedStreamRead_unmark] at hrequests hbytes
    omega
  · intro keep len out acc st n hn
    refine BlockReader.getDataLoopFor_eq (fun s => s.length/5) ?_ hn
    intro s b rest hf
    obtain ⟨-,hlt,-⟩ := decompressNext_advances hf
    omega

end QData
