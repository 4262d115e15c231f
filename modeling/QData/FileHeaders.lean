import QData.BlockReader
import QData.BlockWriter
/-! The file header with the checksum stored in it, and the seekable streams that it is
written to and read from. -/
set_option autoImplicit false

namespace QData
open Words Requests

def qdataCurrentFormatVer : UInt8 := 1
def zstdCompressionFlag : UInt8 := 1
def littleEndianFlag : UInt8 := 2
def noShuffleFlag : UInt8 := 0
def yesShuffleFlag : UInt8 := 1

def headerHashPosition : Nat := 16

def qs2MagicBits : Bytes := [0x0B,0x0E,0x0A,0xC1]
def qdataMagicBits : Bytes := [0x0B,0x0E,0x0A,0xCD]
def qsLegacyMagicBits : Bytes := [0x0B,0x0E,0x0A,0x0C]
def reservedBits : Bytes := List.replicate 16 0

/-- `OfStreamWriter` on a file, or `erased_memory_writer` on a buffer: what lies there, and
where the next write goes. -/
structure OutStream where
  bytes : Bytes := []
  position : Nat := 0
  deriving DecidableEq, Repr

namespace OutStream

def write (bs : Bytes) (o : OutStream) : OutStream :=
  ⟨writeAt o.bytes o.position bs,o.position+bs.length⟩

def seekp (pos : Nat) (o : OutStream) : OutStream := { o with position := pos }

theorem write_end {o : OutStream} (h : o.position = o.bytes.length) (bs : Bytes) :
    o.write bs = ⟨o.bytes ++ bs,(o.bytes ++ bs).length⟩ := by
  rw [write,h,writeAt]
  simp

theorem write_inside (front old back bs : Bytes) (h : old.length = bs.length) :
    ((OutStream.mk (front ++ old ++ back) front.length).write bs).bytes =
      front ++ bs ++ back := by
  have hdrop : (front ++ old ++ back).drop (front.length+bs.length) = back := by
    rw [← h,← List.length_append,List.drop_left]
  rw [write,writeAt,hdrop,List.append_assoc front,List.take_left]

end OutStream

def qdataHeader (shuffle : Bool) : Bytes :=
  qdataMagicBits ++ [qdataCurrentFormatVer,zstdCompressionFlag,littleEndianFlag,
    if shuffle then yesShuffleFlag else noShuffleFlag] ++ reservedBits

def writeQdataHeader (shuffle : Bool) (o : OutStream) : OutStream := o.write (qdataHeader shuffle)

/-- The last operation on a stream: it leaves the position inside the header. -/
def writeQxHash (value : UInt64) (o : OutStream) : OutStream :=
  if value ≠ 0 then (o.seekp headerHashPosition).write (toBytes 8 value.toNat) else o

def checkMagicNumber (bits magicBits : Bytes) : Bool := bits.take 4 == magicBits

def thrown (msg : String) : Halt ReadError := .error (.direct msg)

structure QdataHeader where
  shuffle : Bool
  hash : UInt64
  deriving DecidableEq, Repr

/-- The bytes of the header are zero where the stream ends before them; how many were read
is not looked at. -/
def readQdataHeader (stream : Bytes) : ReadResult (QdataHeader × Bytes) :=
  let bits := stream.take 24 ++ List.replicate (24 - stream.length) 0
  if ¬ checkMagicNumber bits qdataMagicBits then
    if checkMagicNumber bits qs2MagicBits then
      .error (thrown "qs2 format detected, use qs2::qs_read")
    else if checkMagicNumber bits qsLegacyMagicBits then
      .error (thrown "qs-legacy format detected, use qs::qread")
    else .error (thrown "Unknown file format detected")
  else if bits.getD 4 0 > qdataCurrentFormatVer then
    .error (thrown "qdata format may be newer; please update qdata to latest version")
  else if bits.getD 5 0 ≠ zstdCompressionFlag then
    .error (thrown "Unknown compression algorithm detected in qdata format")
  else if bits.getD 6 0 ≠ littleEndianFlag then
    .error (thrown "File and system endian mismatch")
  else
    .ok (⟨bits.getD 7 0 != noShuffleFlag,
      UInt64.ofNat (toNat ((bits.drop headerHashPosition).take 8))⟩,stream.drop 24)

def hashRemaining (fed stream : Bytes) : Bytes :=
  if _h : stream.take maxZblocksize = [] then fed
  else hashRemaining (fed ++ stream.take maxZblocksize) (stream.drop maxZblocksize)
termination_by stream.length
decreasing_by
  have hz : 0 < maxZblocksize := by decide
  rw [List.take_eq_nil_iff,not_or] at _h
  have hl := List.length_pos_iff.mpr _h.2
  simp only [List.length_drop]
  omega

/-- `read_qx_hash`, after which the stream stands where it stood. -/
def readQxHash (xxh : Bytes → UInt64) (stream : Bytes) : UInt64 :=
  digest xxh (hashRemaining [] stream)

theorem hashRemaining_eq (fed stream : Bytes) : hashRemaining fed stream = fed ++ stream := by
  induction fed, stream using hashRemaining.induct with
  | case1 fed stream h =>
    rw [hashRemaining,dif_pos h]
    rcases List.take_eq_nil_iff.mp h with hz | hs
    · exact absurd hz (by decide)
    · rw [hs,List.append_nil]
  | case2 fed stream h ih =>
    rw [hashRemaining,dif_neg h,ih,List.append_assoc,List.take_append_drop]

/-- Reading in pieces hashes everything that remains. -/
theorem readQxHash_eq (xxh : Bytes → UInt64) (stream : Bytes) :
    readQxHash xxh stream = digest xxh stream := by
  rw [readQxHash,hashRemaining_eq,List.nil_append]

def storedHeader (shuffle : Bool) (hash : UInt64) : Bytes :=
  qdataMagicBits ++ [qdataCurrentFormatVer,zstdCompressionFlag,littleEndianFlag,
    if shuffle then yesShuffleFlag else noShuffleFlag] ++ List.replicate 8 0 ++
      toBytes 8 hash.toNat

@[simp] theorem length_storedHeader (shuffle : Bool) (hash : UInt64) :
    (storedHeader shuffle hash).length = 24 := by
  simp [storedHeader,qdataMagicBits]

theorem qdataHeader_eq (shuffle : Bool) : qdataHeader shuffle = storedHeader shuffle 0 := by
  cases shuffle <;> rfl

theorem writeQdataHeader_write (shuffle : Bool) (out : Bytes) :
    (writeQdataHeader shuffle {}).write out =
      ⟨storedHeader shuffle 0 ++ out,(storedHeader shuffle 0 ++ out).length⟩ := by
  have hheader : writeQdataHeader shuffle {} = ⟨storedHeader shuffle 0,24⟩ := by
    rw [writeQdataHeader,OutStream.write_end rfl,qdataHeader_eq]
    rfl
  rw [hheader,OutStream.write_end (length_storedHeader shuffle 0).symm]

/-- What the two header operations leave around the blocks. -/
theorem writeQxHash_bytes (shuffle : Bool) (out : Bytes) (hash : UInt64) :
    (writeQxHash hash ((writeQdataHeader shuffle {}).write out)).bytes =
      storedHeader shuffle hash ++ out := by
  rw [writeQdataHeader_write,writeQxHash]
  by_cases hz : hash = 0
  · rw [if_neg (by simp [hz]),hz]
  · rw [if_pos hz]
    have h := OutStream.write_inside (qdataMagicBits ++ [qdataCurrentFormatVer,
      zstdCompressionFlag,littleEndianFlag,if shuffle then yesShuffleFlag else noShuffleFlag] ++
        List.replicate 8 0) (toBytes 8 0) out (toBytes 8 hash.toNat) (by simp)
    exact h

theorem readQdataHeader_stored (shuffle : Bool) (hash : UInt64) (rest : Bytes) :
    readQdataHeader (storedHeader shuffle hash ++ rest) = .ok (⟨shuffle,hash⟩,rest) := by
  have hlen := length_storedHeader shuffle hash
  have htake : (storedHeader shuffle hash ++ rest).take 24 = storedHeader shuffle hash := by
    rw [← hlen,List.take_left]
  have hdrop : (storedHeader shuffle hash ++ rest).drop 24 = rest := by
    rw [← hlen,List.drop_left]
  have hpad : 24 - (storedHeader shuffle hash ++ rest).length = 0 := by
    rw [List.length_append]
    omega
  have hbits : (storedHeader shuffle hash).drop headerHashPosition = toBytes 8 hash.toNat := rfl
  have hhash : UInt64.ofNat (toNat (toBytes 8 hash.toNat)) = hash := by
    rw [toNat_toBytes (by simpa using hash.toNat_lt),UInt64.ofNat_toNat]
  have hfull : (toBytes 8 hash.toNat).take 8 = toBytes 8 hash.toNat := by
    rw [List.take_of_length_le (by simp)]
  rw [readQdataHeader]
  simp only [htake,hdrop,hpad,List.replicate_zero,List.append_nil,hbits,hfull,hhash]
  cases shuffle <;> rfl

theorem readQdataHeader_rest {stream rest : Bytes} {header : QdataHeader}
    (h : readQdataHeader stream = .ok (header,rest)) : rest = stream.drop 24 := by
  rw [readQdataHeader] at h
  split at h
  · split at h
    · cases h
    · split at h <;> cases h
  · split at h
    · cases h
    · split at h
      · cases h
      · split at h
        · cases h
        · cases h
          rfl

end QData
