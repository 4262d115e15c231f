import QData.Lib.Requests
import QData.Lib.Pieces
/-! Format constants and limits, and the calls that cross between the object codec
and the block layer. A host is little-endian throughout. -/
set_option autoImplicit false

namespace QData

abbrev Bytes := List UInt8

def maxBlocksize : Nat := 1048576
def blockReserve : Nat := 64

def minBlocksize : Nat := maxBlocksize - blockReserve

/-- `ZSTD_COMPRESSBOUND` as zstd documents it. -/
def zstdCompressbound (n : Nat) : Nat :=
  n + n / 256 + if n < 131072 then (131072 - n) / 2048 else 0

def maxZblocksize : Nat := zstdCompressbound maxBlocksize

/-- The top bit of a block's size word carries metadata. -/
def blockMetadata : Nat := 2 ^ 31

def compressedBlockSize (zsize : Nat) : Nat := zsize % blockMetadata

def compressedBlockSizeFitsBuffer (zsize : Nat) : Bool :=
  decide (compressedBlockSize zsize ≤ maxZblocksize)

def naStringLength : Nat := 4294967295

def max5BitLength : Nat := 32
def max8BitLength : Nat := 256
def max16BitLength : Nat := 65536
def max32BitLength : Nat := 4294967296

def bitmaskType5 : UInt8 := 0xE0
def bitmaskLength5 : UInt8 := 0x1F

def listHeader5 : UInt8 := 0x20
def listHeader8 : UInt8 := 0x01
def listHeader16 : UInt8 := 0x02
def listHeader32 : UInt8 := 0x03
def listHeader64 : UInt8 := 0x04

def numericHeader5 : UInt8 := 0x40
def numericHeader8 : UInt8 := 0x05
def numericHeader16 : UInt8 := 0x06
def numericHeader32 : UInt8 := 0x07
def numericHeader64 : UInt8 := 0x08

def integerHeader5 : UInt8 := 0x60
def integerHeader8 : UInt8 := 0x09
def integerHeader16 : UInt8 := 0x0A
def integerHeader32 : UInt8 := 0x0B
def integerHeader64 : UInt8 := 0x0C

def logicalHeader5 : UInt8 := 0x80
def logicalHeader8 : UInt8 := 0x0D
def logicalHeader16 : UInt8 := 0x0E
def logicalHeader32 : UInt8 := 0x0F
def logicalHeader64 : UInt8 := 0x10

def rawHeader32 : UInt8 := 0x17
def rawHeader64 : UInt8 := 0x18

def nilHeader : UInt8 := 0x00

def characterHeader5 : UInt8 := 0xA0
def characterHeader8 : UInt8 := 0x11
def characterHeader16 : UInt8 := 0x12
def characterHeader32 : UInt8 := 0x13
def characterHeader64 : UInt8 := 0x14

def complexHeader32 : UInt8 := 0x15
def complexHeader64 : UInt8 := 0x16

def attributeHeader5 : UInt8 := 0xE0
def attributeHeader8 : UInt8 := 0x1E
def attributeHeader32 : UInt8 := 0x1F

def stringHeader16 : UInt8 := 253
def stringHeader32 : UInt8 := 254
def stringHeaderNA : UInt8 := 255

def maxString8BitLength : Nat := 253
def maxString16BitLength : Nat := 65536

inductive Qstype where
  | nil | logical | integer | real | complex | character | list | raw | attribute
  deriving DecidableEq, Repr

def maxRCompatibleVectorLength : Nat := 4503599627370496
def maxRCompatibleAttrCount : Nat := 2147483647
def maxRCompatibleStringLength : Nat := 2147483647
def defaultQdataMaxNestingDepth : Nat := 512

/-- How the reading side fails: through `cleanup_and_throw` of the block reader, which
winds the reader down first, or by a `throw` written where a limit is checked. -/
inductive ReadError where
  | cleanup : String → ReadError
  | direct : String → ReadError
  deriving DecidableEq, Repr

/-- Calls on a block writer; each carries the bytes it copies. -/
inductive PushOp where
  | pod : Bytes → PushOp
  | podContiguous : Bytes → PushOp
  | data : Bytes → PushOp
  deriving DecidableEq, Repr

def PushOp.bytes : PushOp → Bytes
  | .pod bs | .podContiguous bs | .data bs => bs

def pushedBytes (ops : List PushOp) : Bytes := ops.flatMap PushOp.bytes

@[simp] theorem pushedBytes_nil : pushedBytes [] = [] := rfl

@[simp] theorem pushedBytes_cons (op : PushOp) (ops : List PushOp) :
    pushedBytes (op :: ops) = op.bytes ++ pushedBytes ops := by simp [pushedBytes]

@[simp] theorem pushedBytes_append (xs ys : List PushOp) :
    pushedBytes (xs ++ ys) = pushedBytes xs ++ pushedBytes ys := by simp [pushedBytes]

/-- Calls on a block reader, with the number of bytes asked for. -/
inductive GetOp where
  | pod : Nat → GetOp
  | podContiguous : Nat → GetOp
  | data : Nat → GetOp
  deriving DecidableEq, Repr

def GetOp.size : GetOp → Nat
  | .pod n | .podContiguous n | .data n => n

def GetOp.Sized : GetOp → Prop
  | .pod n | .podContiguous n => 0 < n
  | .data _ => True

abbrev Reader (α : Type) := Requests.Prog GetOp Bytes ReadError α

abbrev ReadResult (α : Type) := Except (Requests.Halt ReadError) α

end QData
