import QData.Objects
/-! The write side of the object codec: the header pass with its deferred payloads, and
the flush of the five payload groups. Written as the calls made on the block writer. -/
set_option autoImplicit false

namespace QData
open Words

/-- `deferred_payload`: the vector pointed at, with the emit function of its type. -/
structure Deferred where
  access : Access
  leaf : Leaf
  deriving DecidableEq, Repr

structure Payloads where
  string : List Deferred := []
  complex : List Deferred := []
  real : List Deferred := []
  integer : List Deferred := []
  raw : List Deferred := []
  deriving DecidableEq, Repr

def Payloads.append (p q : Payloads) : Payloads :=
  ⟨p.string ++ q.string,p.complex ++ q.complex,p.real ++ q.real,
    p.integer ++ q.integer,p.raw ++ q.raw⟩

/-- What a stretch of writing did: the calls on the block writer, the payloads it put
off, and the message of the exception that ended it, if one did. -/
structure WriteRun where
  pushed : List PushOp := []
  deferred : Payloads := {}
  error : Option String := none
  deriving DecidableEq, Repr

/-- Sequencing: nothing after an exception runs, and what came before it stays done. -/
def WriteRun.andThen (a b : WriteRun) : WriteRun :=
  match a.error with
  | some _ => a
  | none => ⟨a.pushed ++ b.pushed,a.deferred.append b.deferred,b.error⟩

instance : Append WriteRun := ⟨WriteRun.andThen⟩

theorem WriteRun.append_failed {a b : WriteRun} {e : String} (h : a.error = some e) :
    a ++ b = a := by
  change a.andThen b = a
  simp [WriteRun.andThen,h]

theorem WriteRun.append_ok {a b : WriteRun} (h : a.error = none) :
    a ++ b = ⟨a.pushed ++ b.pushed,a.deferred.append b.deferred,b.error⟩ := by
  change a.andThen b = _
  simp [WriteRun.andThen,h]

theorem WriteRun.error_append_or (a b : WriteRun) :
    (a ++ b).error = a.error.or b.error := by
  cases h : a.error with
  | none => simp [WriteRun.append_ok h]
  | some e => simp [WriteRun.append_failed h,h]

theorem WriteRun.error_append_eq_none {a b : WriteRun} :
    (a ++ b).error = none ↔ a.error = none ∧ b.error = none := by
  rw [WriteRun.error_append_or,Option.or_eq_none_iff]

def pushPod (bs : Bytes) : WriteRun := { pushed := [.pod bs] }
def pushPodContiguous (bs : Bytes) : WriteRun := { pushed := [.podContiguous bs] }
def pushData (bs : Bytes) : WriteRun := { pushed := [.data bs] }
def failWith (msg : String) : WriteRun := { error := some msg }

def pushPodIf (bs : Bytes) (contiguous : Bool) : WriteRun :=
  if contiguous then pushPodContiguous bs else pushPod bs

def checkedAttrCount (value : Nat) : WriteRun :=
  if value > maxRCompatibleAttrCount then
    failWith "attribute count exceeds qdata's R-compatible INT_MAX limit"
  else {}

def checkedStringLength (value : Nat) : WriteRun :=
  if value > maxRCompatibleStringLength then
    failWith "string length exceeds qdata's R-compatible string length limit"
  else {}

def checkedObjectLength (value : Nat) (what : String) : WriteRun :=
  if value > maxRCompatibleVectorLength then
    failWith (what ++ " exceeds qdata's R-compatible vector length limit")
  else {}

def checkedMaxNestingDepth (value : Nat) : WriteRun :=
  if value = 0 then failWith "max_depth must be at least 1" else {}

def writeAttrHeader (length : Nat) : WriteRun :=
  if length < max5BitLength then pushPod [attributeHeader5 ||| UInt8.ofNat length]
  else if length < max8BitLength then
    pushPod [attributeHeader8] ++ pushPodContiguous (toBytes 1 length)
  else pushPod [attributeHeader32] ++ pushPodContiguous (toBytes 4 length)

def writeLengthHeader32 (h32 h64 : UInt8) (length : Nat) (hasAttrs : Bool) : WriteRun :=
  if length < max32BitLength then
    pushPodIf [h32] hasAttrs ++ pushPodContiguous (toBytes 4 length)
  else pushPodIf [h64] hasAttrs ++ pushPodContiguous (toBytes 8 length)

def writeLengthHeader5 (h5 h8 h16 h32 h64 : UInt8) (length : Nat) (hasAttrs : Bool) :
    WriteRun :=
  if length < max5BitLength then pushPodIf [h5 ||| UInt8.ofNat length] hasAttrs
  else if length < max8BitLength then
    pushPodIf [h8] hasAttrs ++ pushPodContiguous (toBytes 1 length)
  else if length < max16BitLength then
    pushPodIf [h16] hasAttrs ++ pushPodContiguous (toBytes 2 length)
  else writeLengthHeader32 h32 h64 length hasAttrs

def writeHeader (body : Bool → WriteRun) (attrLength : Nat) : WriteRun :=
  if attrLength > 0 then writeAttrHeader attrLength ++ body true else body false

def writeHeaderLglsxp (length attrLength : Nat) : WriteRun :=
  writeHeader (writeLengthHeader5 logicalHeader5 logicalHeader8 logicalHeader16
    logicalHeader32 logicalHeader64 length) attrLength

def writeHeaderIntsxp (length attrLength : Nat) : WriteRun :=
  writeHeader (writeLengthHeader5 integerHeader5 integerHeader8 integerHeader16
    integerHeader32 integerHeader64 length) attrLength

def writeHeaderRealsxp (length attrLength : Nat) : WriteRun :=
  writeHeader (writeLengthHeader5 numericHeader5 numericHeader8 numericHeader16
    numericHeader32 numericHeader64 length) attrLength

def writeHeaderCplxsxp (length attrLength : Nat) : WriteRun :=
  writeHeader (writeLengthHeader32 complexHeader32 complexHeader64 length) attrLength

def writeHeaderStrsxp (length attrLength : Nat) : WriteRun :=
  writeHeader (writeLengthHeader5 characterHeader5 characterHeader8 characterHeader16
    characterHeader32 characterHeader64 length) attrLength

def writeHeaderVecsxp (length attrLength : Nat) : WriteRun :=
  writeHeader (writeLengthHeader5 listHeader5 listHeader8 listHeader16
    listHeader32 listHeader64 length) attrLength

def writeHeaderRawsxp (length attrLength : Nat) : WriteRun :=
  writeHeader (writeLengthHeader32 rawHeader32 rawHeader64 length) attrLength

/-- The frame shared by the `begin_*_vector` functions. The checks are arguments of one call, so
C++ leaves their order open; it shows only where both fail. Either comes before the header. -/
def beginVector (what : String) (header : Nat → Nat → WriteRun) (size attrCount : Nat) :
    WriteRun :=
  checkedObjectLength size what ++ (checkedAttrCount attrCount ++ header size attrCount)

def beginLogicalVector := beginVector "logical vector length" writeHeaderLglsxp
def beginIntegerVector := beginVector "integer vector length" writeHeaderIntsxp
def beginRealVector := beginVector "real vector length" writeHeaderRealsxp
def beginComplexVector := beginVector "complex vector length" writeHeaderCplxsxp
def beginStringVector := beginVector "string vector length" writeHeaderStrsxp
def beginRawVector := beginVector "raw vector length" writeHeaderRawsxp
def beginListVector := beginVector "list length" writeHeaderVecsxp

def writeStringHeader (length : Nat) : WriteRun :=
  if length < maxString8BitLength then pushPod (toBytes 1 length)
  else if length < maxString16BitLength then
    pushPod [stringHeader16] ++ pushPodContiguous (toBytes 2 length)
  else pushPod [stringHeader32] ++ pushPodContiguous (toBytes 4 length)

def writeText (s : Bytes) : WriteRun :=
  checkedStringLength s.length ++
    (writeStringHeader s.length ++ if s.length > 0 then pushData s else {})

def writeAttributeName (name : Bytes) : WriteRun := writeText name

def writeStringValue : Option Bytes → WriteRun
  | none => pushPod [stringHeaderNA]
  | some s => writeText s

def writeArrayData {α : Type} (put : α → Bytes) (xs : List α) : WriteRun :=
  if xs.length > 0 then pushData (pack put xs) else {}

def writeEach {α : Type} (write : α → WriteRun) : List α → WriteRun
  | [] => {}
  | x :: xs => write x ++ writeEach write xs

def emitArray {α : Type} (put : α → Bytes) (access : Access) (xs : List α) : WriteRun :=
  match access with
  | .direct => writeArrayData put xs
  | .elementwise => writeEach (fun x => pushData (put x)) xs

def emitPayload (d : Deferred) : WriteRun :=
  match d.leaf with
  | .logical xs => emitArray int32Bytes d.access xs
  | .integer xs => emitArray int32Bytes d.access xs
  | .real xs => emitArray doubleBytes d.access xs
  | .complex xs => emitArray complexBytes d.access xs
  | .string records => writeEach writeStringValue records
  | .raw xs => emitArray byteBytes d.access xs

def beginLeafVector (leaf : Leaf) (attrCount : Nat) : WriteRun :=
  match leaf with
  | .logical xs => beginLogicalVector xs.length attrCount
  | .integer xs => beginIntegerVector xs.length attrCount
  | .real xs => beginRealVector xs.length attrCount
  | .complex xs => beginComplexVector xs.length attrCount
  | .string xs => beginStringVector xs.length attrCount
  | .raw xs => beginRawVector xs.length attrCount

def deferPayload (d : Deferred) : WriteRun :=
  if d.leaf.size > 0 then
    match d.leaf with
    | .logical _ | .integer _ => { deferred := { integer := [d] } }
    | .real _ => { deferred := { real := [d] } }
    | .complex _ => { deferred := { complex := [d] } }
    | .string _ => { deferred := { string := [d] } }
    | .raw _ => { deferred := { raw := [d] } }
  else {}

/-- The guard at the top of `write_object`; the budget is `max_depth` less the scopes
already entered, so the guard fires when none is left. -/
def enterObjectScope (budget : Nat) : WriteRun :=
  if budget = 0 then failWith "qdata nesting depth exceeds configured max_depth" else {}

mutual
/-- `write_object` over its overloads. Leaving a scope gives the budget back: a callee
only ever sees a smaller copy. -/
def writeObject (budget : Nat) : Value → WriteRun
  | .nil => enterObjectScope budget ++ pushPod [nilHeader]
  | .vector access leaf attrs =>
      enterObjectScope budget ++ (beginLeafVector leaf attrs.length ++
        (writeAttributes (budget-1) attrs ++ deferPayload ⟨access,leaf⟩))
  | .list values attrs =>
      enterObjectScope budget ++ (beginListVector values.length attrs.length ++
        (writeAttributes (budget-1) attrs ++ writeValues (budget-1) values))
  | .writable v => writeObject budget v
  | .uninitialized => failWith "qdata::writable is not initialized"

def writeAttributes (budget : Nat) : List (Bytes × Value) → WriteRun
  | [] => {}
  | (name,v) :: rest =>
      writeAttributeName name ++ (writeObject budget v ++ writeAttributes budget rest)

def writeValues (budget : Nat) : List Value → WriteRun
  | [] => {}
  | v :: rest => writeObject budget v ++ writeValues budget rest
end

def flushPayloadGroup (payloads : List Deferred) : WriteRun := writeEach emitPayload payloads

def flushPayloads (p : Payloads) : WriteRun :=
  flushPayloadGroup p.string ++ (flushPayloadGroup p.complex ++ (flushPayloadGroup p.real ++
    (flushPayloadGroup p.integer ++ flushPayloadGroup p.raw)))

/-- All that `write_single_thread` and `write_multi_thread` ask of their block writer
before `finish()`: the stream writer's construction, `write_object`, `flush_payloads`. -/
def streamWrite (maxDepth : Nat) (v : Value) : WriteRun :=
  checkedMaxNestingDepth maxDepth ++
    (writeObject maxDepth v ++ flushPayloads (writeObject maxDepth v).deferred)

end QData
