import QData.Objects
/-! The read side of the object codec: object and string headers, the header pass that
builds an object around unread vectors, and the payload pass that fills them. -/
set_option autoImplicit false

namespace QData
open Words Requests

def getPod (size : Nat) : Reader Nat := do
  let bs ← Prog.request (GetOp.pod size)
  pure (toNat bs)

def getPodContiguous (size : Nat) : Reader Nat := do
  let bs ← Prog.request (GetOp.podContiguous size)
  pure (toNat bs)

def getData (len : Nat) : Reader Bytes := Prog.request (GetOp.data len)

def cleanupAndThrow {α : Type} (msg : String) : Reader α := Prog.fail (.cleanup msg)
def throwDirectly {α : Type} (msg : String) : Reader α := Prog.fail (.direct msg)

def wideHeaders : List (UInt8 × Qstype × Nat) :=
  [(logicalHeader8,.logical,1),(logicalHeader16,.logical,2),
    (logicalHeader32,.logical,4),(logicalHeader64,.logical,8),
    (integerHeader8,.integer,1),(integerHeader16,.integer,2),
    (integerHeader32,.integer,4),(integerHeader64,.integer,8),
    (numericHeader8,.real,1),(numericHeader16,.real,2),
    (numericHeader32,.real,4),(numericHeader64,.real,8),
    (complexHeader32,.complex,4),(complexHeader64,.complex,8),
    (characterHeader8,.character,1),(characterHeader16,.character,2),
    (characterHeader32,.character,4),(characterHeader64,.character,8),
    (listHeader8,.list,1),(listHeader16,.list,2),
    (listHeader32,.list,4),(listHeader64,.list,8),
    (rawHeader32,.raw,4),(rawHeader64,.raw,8),
    (attributeHeader8,.attribute,1),(attributeHeader32,.attribute,4)]

def narrowHeaders : List (UInt8 × Qstype) :=
  [(logicalHeader5,.logical),(integerHeader5,.integer),(numericHeader5,.real),
    (characterHeader5,.character),(listHeader5,.list),(attributeHeader5,.attribute)]

/-- Type and length; a nil header leaves the caller's `len` as it is. -/
def decodeObjectHeader (headerByte : UInt8) (len : Nat) : Reader (Qstype × Nat) :=
  if headerByte &&& bitmaskType5 = 0 then
    if headerByte = nilHeader then pure (.nil,len)
    else
      match wideHeaders.lookup headerByte with
      | some (type,width) => do
          let len ← getPodContiguous width
          pure (type,len)
      | none => cleanupAndThrow "Unknown qdata header type"
  else
    match narrowHeaders.lookup (headerByte &&& bitmaskType5) with
    | some type => pure (type,(headerByte &&& bitmaskLength5).toNat)
    | none => cleanupAndThrow "Unknown qdata header type"

def readObjectHeader : Reader (Qstype × Nat × Nat) := do
  let headerByte ← getPod 1
  let (type,objectLength) ← decodeObjectHeader (UInt8.ofNat headerByte) 0
  if type = .attribute then
    let attrLength := objectLength
    let headerByte ← getPodContiguous 1
    let (type,objectLength) ← decodeObjectHeader (UInt8.ofNat headerByte) objectLength
    if type = .attribute then cleanupAndThrow "Malformed qdata header sequence"
    else pure (type,objectLength,attrLength)
  else pure (type,objectLength,0)

def readStringHeader : Reader Nat := do
  let stringLen ← getPod 1
  if stringLen = stringHeader16.toNat then getPodContiguous 2
  else if stringLen = stringHeader32.toNat then getPodContiguous 4
  else if stringLen = stringHeaderNA.toNat then pure naStringLength
  else pure stringLen

def checkedRCompatibleVectorSize (value : Nat) (what : String) : Reader Nat :=
  if value > maxRCompatibleVectorLength then
    throwDirectly (what ++ " exceeds qdata's R-compatible vector length limit")
  else pure value

def checkedRCompatibleAttrCount (value : Nat) : Reader Nat :=
  if value > maxRCompatibleAttrCount then
    throwDirectly "attribute count exceeds qdata's R-compatible INT_MAX limit"
  else pure value

def checkedRCompatibleStringSize (value : Nat) (what : String) : Reader Nat :=
  if value > maxRCompatibleStringLength then
    throwDirectly (what ++ " exceeds qdata's R-compatible string length limit")
  else pure value

/-- An object under construction. A vector is held by the address of its cell, as the
payload queues hold it. -/
inductive Shell where
  | nil : Shell
  | vector : Nat → List (Bytes × Shell) → Shell
  | list : List Shell → List (Bytes × Shell) → Shell

/-- The reader's members, and the vectors it has resized so far, by address. -/
structure Building where
  cells : List Leaf := []
  stringPayloads : List Nat := []
  complexPayloads : List Nat := []
  realPayloads : List Nat := []
  integerPayloads : List Nat := []
  rawPayloads : List Nat := []
  deriving DecidableEq, Repr

/-! A vector as `resize` leaves it. -/

def logicalOfSize (n : Nat) : Leaf := .logical (List.replicate n 0)
def integerOfSize (n : Nat) : Leaf := .integer (List.replicate n 0)
def realOfSize (n : Nat) : Leaf := .real (List.replicate n 0)
def complexOfSize (n : Nat) : Leaf := .complex (List.replicate n (0,0))
def stringOfSize (n : Nat) : Leaf := .string (List.replicate n none)
def rawOfSize (n : Nat) : Leaf := .raw (List.replicate n 0)

def Building.allocate (st : Building) (leaf : Leaf) : Building :=
  { st with cells := st.cells ++ [leaf] }

/-- `*_payloads_.push_back(&stored.values)`, for a vector that is not empty. -/
def Building.register (st : Building) (address : Nat) (leaf : Leaf) : Building :=
  if leaf.size > 0 then
    match leaf with
    | .logical _ | .integer _ => { st with integerPayloads := st.integerPayloads ++ [address] }
    | .real _ => { st with realPayloads := st.realPayloads ++ [address] }
    | .complex _ => { st with complexPayloads := st.complexPayloads ++ [address] }
    | .string _ => { st with stringPayloads := st.stringPayloads ++ [address] }
    | .raw _ => { st with rawPayloads := st.rawPayloads ++ [address] }
  else st

/-- The loop of `read_attributes`; `self` is `read_into` one scope deeper. -/
def readAttributeLoop (self : Building → Reader (Shell × Building)) :
    Nat → Building → Reader (List (Bytes × Shell) × Building)
  | 0, st => pure ([],st)
  | n+1, st => do
      let nameLength ← readStringHeader
      if nameLength = naStringLength then cleanupAndThrow "Attribute names cannot be NA"
      else
        let size ← checkedRCompatibleStringSize nameLength "attribute name length"
        let name ← if nameLength > 0 then getData size else pure []
        let (x,st) ← self st
        let (rest,st) ← readAttributeLoop self n st
        pure ((name,x) :: rest,st)

def readAttributes (self : Building → Reader (Shell × Building)) (attrLength : Nat)
    (st : Building) : Reader (List (Bytes × Shell) × Building) := do
  let count ← checkedRCompatibleAttrCount attrLength
  readAttributeLoop self count st

def readValues (self : Building → Reader (Shell × Building)) :
    Nat → Building → Reader (List Shell × Building)
  | 0, st => pure ([],st)
  | n+1, st => do
      let (x,st) ← self st
      let (rest,st) ← readValues self n st
      pure (x :: rest,st)

/-- The branch of `read_into` shared by the six leaf types: resize, attributes, then the
payload queue. -/
def readVector (self : Building → Reader (Shell × Building)) (ofSize : Nat → Leaf)
    (what : String) (objectLength attrLength : Nat) (st : Building) :
    Reader (Shell × Building) := do
  let size ← checkedRCompatibleVectorSize objectLength what
  let (attrs,st') ← readAttributes self attrLength (st.allocate (ofSize size))
  pure (.vector st.cells.length attrs,st'.register st.cells.length (ofSize size))

/-- `read_into`. The budget is `max_depth` less the calls already active. A list checks
its length after its attributes; nil ignores an attribute count. -/
def readInto : Nat → Building → Reader (Shell × Building)
  | 0, _ => cleanupAndThrow "qdata nesting depth exceeds configured max_depth"
  | budget+1, st => do
      let (type,objectLength,attrLength) ← readObjectHeader
      match type with
      | .nil => pure (.nil,st)
      | .logical =>
          readVector (readInto budget) logicalOfSize "logical vector length"
            objectLength attrLength st
      | .integer =>
          readVector (readInto budget) integerOfSize "integer vector length"
            objectLength attrLength st
      | .real =>
          readVector (readInto budget) realOfSize "real vector length"
            objectLength attrLength st
      | .complex =>
          readVector (readInto budget) complexOfSize "complex vector length"
            objectLength attrLength st
      | .character =>
          readVector (readInto budget) stringOfSize "string vector length"
            objectLength attrLength st
      | .list => do
          let (attrs,st) ← readAttributes (readInto budget) attrLength st
          let size ← checkedRCompatibleVectorSize objectLength "list length"
          let (values,st) ← readValues (readInto budget) size st
          pure (.list values attrs,st)
      | .raw =>
          readVector (readInto budget) rawOfSize "raw vector length"
            objectLength attrLength st
      | .attribute => cleanupAndThrow "Unsupported qdata object type"

/-- The record loop of `read_string_payloads`. The tests run in the order of the source:
NA first, then the empty string, then the limit. -/
def readStringPayloads : Nat → Reader (List (Option Bytes))
  | 0 => pure []
  | n+1 => do
      let stringLength ← readStringHeader
      if stringLength = naStringLength then
        let rest ← readStringPayloads n
        pure (none :: rest)
      else if stringLength = 0 then
        let rest ← readStringPayloads n
        pure (some [] :: rest)
      else
        let size ← checkedRCompatibleStringSize stringLength "string length"
        let s ← getData size
        let rest ← readStringPayloads n
        pure (some s :: rest)

def Leaf.byteSize : Leaf → Nat
  | .logical xs | .integer xs => xs.length * 4
  | .real xs => xs.length * 8
  | .complex xs => xs.length * 16
  | .string _ => 0
  | .raw xs => xs.length

def Leaf.fill : Leaf → Bytes → Leaf
  | .logical xs, bs => .logical (unpack 4 int32OfBytes xs.length bs)
  | .integer xs, bs => .integer (unpack 4 int32OfBytes xs.length bs)
  | .real xs, bs => .real (unpack 8 doubleOfBytes xs.length bs)
  | .complex xs, bs => .complex (unpack 16 complexOfBytes xs.length bs)
  | .string xs, _ => .string xs
  | .raw xs, bs => .raw (unpack 1 byteOfBytes xs.length bs)

def readStringGroup : List Nat → List Leaf → Reader (List Leaf)
  | [], cells => pure cells
  | address :: rest, cells => do
      let records ← readStringPayloads (cells.getD address (.raw [])).size
      readStringGroup rest (cells.set address (.string records))

def readArrayGroup : List Nat → List Leaf → Reader (List Leaf)
  | [], cells => pure cells
  | address :: rest, cells => do
      let cell := cells.getD address (.raw [])
      let bs ← getData cell.byteSize
      readArrayGroup rest (cells.set address (cell.fill bs))

def readObjectData (st : Building) : Reader (List Leaf) := do
  let cells ← readStringGroup st.stringPayloads st.cells
  let cells ← readArrayGroup st.complexPayloads cells
  let cells ← readArrayGroup st.realPayloads cells
  let cells ← readArrayGroup st.integerPayloads cells
  readArrayGroup st.rawPayloads cells

mutual
/-- The finished object: every address replaced by the vector found there. -/
def Shell.resolve (cells : List Leaf) : Shell → Object
  | .nil => .nil
  | .vector address attrs =>
      .vector (cells.getD address (.raw [])) (resolveAttrs cells attrs)
  | .list values attrs => .list (resolveValues cells values) (resolveAttrs cells attrs)

def resolveAttrs (cells : List Leaf) : List (Bytes × Shell) → List (Bytes × Object)
  | [] => []
  | (name,x) :: rest => (name,x.resolve cells) :: resolveAttrs cells rest

def resolveValues (cells : List Leaf) : List Shell → List Object
  | [] => []
  | x :: rest => x.resolve cells :: resolveValues cells rest
end

def readObject (maxDepth : Nat) : Reader (Shell × Building) := readInto maxDepth {}

/-- What `read_single_thread` and `read_multi_thread` ask of their block reader before
`finish()`: the deserializer's construction, `read_object`, `read_object_data`. -/
def streamRead (maxDepth : Nat) : Reader Object := do
  if maxDepth = 0 then throwDirectly "max_depth must be at least 1"
  else
    let (shell,st) ← readObject maxDepth
    let cells ← readObjectData st
    pure (shell.resolve cells)

/-! The deserializer asks for no empty pod. -/

theorem getData_sized (len : Nat) : (getData len).Asks GetOp.Sized :=
  ⟨trivial,fun _ => trivial⟩

theorem wideHeaders_sized {headerByte : UInt8} {type : Qstype} {width : Nat}
    (h : wideHeaders.lookup headerByte = some (type,width)) : 0 < width ∧ width ≤ 8 := by
  have hall : ∀ x ∈ wideHeaders, 0 < x.2.2 ∧ x.2.2 ≤ 8 := by decide
  have hmem : ∃ l₁ l₂, wideHeaders = l₁ ++ (headerByte,(type,width)) :: l₂ := by
    obtain ⟨l₁,l₂,hl,_⟩ := List.lookup_eq_some_iff.mp h
    exact ⟨l₁,l₂,hl⟩
  obtain ⟨l₁,l₂,hl⟩ := hmem
  exact hall (headerByte,(type,width)) (by rw [hl]; simp)

section
variable {P : GetOp → Prop} (hpod : ∀ n, 0 < n → n ≤ 8 → P (.pod n))
  (hcontiguous : ∀ n, 0 < n → n ≤ 8 → P (.podContiguous n))
include hcontiguous

theorem decodeObjectHeader_asks (headerByte : UInt8) (len : Nat) :
    (decodeObjectHeader headerByte len).Asks P := by
  rw [decodeObjectHeader]
  split
  · split
    · trivial
    · split
      · next h =>
        obtain ⟨hpos,hwidth⟩ := wideHeaders_sized h
        exact Prog.Asks.bind ⟨hcontiguous _ hpos hwidth,fun _ => trivial⟩ fun _ => trivial
      · trivial
  · split <;> trivial

include hpod

theorem readObjectHeader_asks : readObjectHeader.Asks P := by
  refine Prog.Asks.bind ⟨hpod 1 Nat.one_pos (by decide),fun _ => trivial⟩ fun headerByte => ?_
  refine (decodeObjectHeader_asks hcontiguous _ _).bind fun x => ?_
  obtain ⟨type,objectLength⟩ := x
  simp only
  split
  · refine Prog.Asks.bind ⟨hcontiguous 1 Nat.one_pos (by decide),fun _ => trivial⟩ fun headerByte => ?_
    refine (decodeObjectHeader_asks hcontiguous _ _).bind fun y => ?_
    split <;> trivial
  · trivial

theorem readStringHeader_asks : readStringHeader.Asks P := by
  refine Prog.Asks.bind ⟨hpod 1 Nat.one_pos (by decide),fun _ => trivial⟩ fun stringLen => ?_
  split
  · exact Prog.Asks.bind ⟨hcontiguous 2 (by decide) (by decide),fun _ => trivial⟩ fun _ => trivial
  · split
    · exact Prog.Asks.bind ⟨hcontiguous 4 (by decide) (by decide),fun _ => trivial⟩ fun _ => trivial
    · split <;> trivial

end

theorem readObjectHeader_sized : readObjectHeader.Asks GetOp.Sized :=
  readObjectHeader_asks (fun _ h _ => h) fun _ h _ => h

theorem readStringHeader_sized : readStringHeader.Asks GetOp.Sized :=
  readStringHeader_asks (fun _ h _ => h) fun _ h _ => h

theorem checkedSize_sized (value limit : Nat) (msg : String) :
    (if value > limit then throwDirectly msg else pure value : Reader Nat).Asks GetOp.Sized := by
  split <;> trivial

section
variable {self : Building → Reader (Shell × Building)}
  (hself : ∀ st, (self st).Asks GetOp.Sized)
include hself

theorem readAttributeLoop_sized (n : Nat) (st : Building) :
    (readAttributeLoop self n st).Asks GetOp.Sized := by
  induction n generalizing st with
  | zero => trivial
  | succ n ih =>
    refine readStringHeader_sized.bind fun nameLength => ?_
    split
    · trivial
    · refine (checkedSize_sized _ _ _).bind fun size => ?_
      have hrest : ∀ name : Bytes, (do
          let (x,st) ← self st
          let (rest,st) ← readAttributeLoop self n st
          pure ((name,x) :: rest,st)).Asks GetOp.Sized := fun name =>
        (hself st).bind fun x => (ih x.2).bind fun _ => trivial
      simp only
      split
      · exact (getData_sized size).bind hrest
      · exact hrest []

theorem readAttributes_sized (attrLength : Nat) (st : Building) :
    (readAttributes self attrLength st).Asks GetOp.Sized :=
  (checkedSize_sized _ _ _).bind fun count => readAttributeLoop_sized hself count st

theorem readValues_sized (n : Nat) (st : Building) :
    (readValues self n st).Asks GetOp.Sized := by
  induction n generalizing st with
  | zero => trivial
  | succ n ih =>
    refine (hself st).bind fun x => ?_
    exact (ih x.2).bind fun _ => trivial

theorem readVector_sized (ofSize : Nat → Leaf) (what : String) (objectLength attrLength : Nat)
    (st : Building) :
    (readVector self ofSize what objectLength attrLength st).Asks GetOp.Sized := by
  refine (checkedSize_sized _ _ _).bind fun size => ?_
  exact (readAttributes_sized hself _ _).bind fun _ => trivial

end

theorem readInto_sized (budget : Nat) (st : Building) :
    (readInto budget st).Asks GetOp.Sized := by
  induction budget generalizing st with
  | zero => trivial
  | succ budget ih =>
    refine readObjectHeader_sized.bind fun header => ?_
    obtain ⟨type,objectLength,attrLength⟩ := header
    cases type with
    | nil => trivial
    | «attribute» => trivial
    | list =>
      refine (readAttributes_sized ih _ _).bind fun x => ?_
      refine (checkedSize_sized _ _ _).bind fun size => ?_
      exact (readValues_sized ih _ _).bind fun _ => trivial
    | _ => exact readVector_sized ih _ _ _ _ _

theorem readStringPayloads_sized (n : Nat) : (readStringPayloads n).Asks GetOp.Sized := by
  induction n with
  | zero => trivial
  | succ n ih =>
    refine readStringHeader_sized.bind fun stringLength => ?_
    split
    · exact ih.bind fun _ => trivial
    · split
      · exact ih.bind fun _ => trivial
      · refine (checkedSize_sized _ _ _).bind fun size => ?_
        refine (getData_sized _).bind fun s => ?_
        exact ih.bind fun _ => trivial

theorem readStringGroup_sized (addresses : List Nat) (cells : List Leaf) :
    (readStringGroup addresses cells).Asks GetOp.Sized := by
  induction addresses generalizing cells with
  | nil => trivial
  | cons address rest ih => exact (readStringPayloads_sized _).bind fun _ => ih _

theorem readArrayGroup_sized (addresses : List Nat) (cells : List Leaf) :
    (readArrayGroup addresses cells).Asks GetOp.Sized := by
  induction addresses generalizing cells with
  | nil => trivial
  | cons address rest ih => exact (getData_sized _).bind fun _ => ih _

theorem streamRead_sized (maxDepth : Nat) : (streamRead maxDepth).Asks GetOp.Sized := by
  rw [streamRead]
  split
  · trivial
  · refine (readInto_sized _ _).bind fun x => ?_
    refine Prog.Asks.bind ?_ fun _ => trivial
    refine (readStringGroup_sized _ _).bind fun _ => (readArrayGroup_sized _ _).bind fun _ => ?_
    exact (readArrayGroup_sized _ _).bind fun _ =>
      (readArrayGroup_sized _ _).bind fun _ => readArrayGroup_sized _ _

end QData
