import QData.FileHeaders
import QData.WriterPipeline
import QData.ZstdModule
/-! `save`, `serialize`, `read` and `deserialize`: the header and the blocks together. -/
set_option autoImplicit false

namespace QData
open Words Requests

def validateWriteArguments (z : Zstd) (compressLevel : Int) : Option String :=
  if compressLevel > z.maxCLevel ∨ compressLevel < z.minCLevel then
    some ("compress_level must be between " ++ toString z.minCLevel ++ " and " ++
      toString z.maxCLevel)
  else none

/-- What a write puts on the stream before it returns its hash or throws. -/
structure Written where
  out : Bytes
  result : Except String UInt64

/-- `write_single_thread`. An exception of the stream writer leaves what the block writer has
sent so far; the block it holds is lost. -/
def writeSingleThread (cp : Compressor) (xxh : Bytes → UInt64) (maxDepth : Nat) (v : Value) :
    Written :=
  let w := ({} : BlockWriter).pushAll cp (streamWrite maxDepth v).pushed
  match (streamWrite maxDepth v).error with
  | some msg => ⟨w.out,.error msg⟩
  | none => ⟨(w.finish cp xxh).1.out,.ok (w.finish cp xxh).2⟩

section
variable (z : Zstd) (xxh : Bytes → UInt64) (compressLevel : Int) (shuffle : Bool)
  (maxDepth : Nat) (v : Value)

def writeQdataObject : Written :=
  match validateWriteArguments z compressLevel with
  | some msg => ⟨[],.error msg⟩
  | none => writeSingleThread (z.compressor shuffle compressLevel) xxh maxDepth v

/-- A normal return of `write_qdata_object`: what is on the stream then, and the hash. With
more than one thread the schedule is open. -/
inductive Returns (nthreads : Int) : Bytes → UInt64 → Prop
  | single {out : Bytes} {hash : UInt64} (one : nthreads ≤ 1)
      (written : writeQdataObject z xxh compressLevel shuffle maxDepth v = ⟨out,.ok hash⟩) :
      Returns nthreads out hash
  | multi {s : WriterPipeline} {hash : UInt64} (more : 1 < nthreads)
      (valid : validateWriteArguments z compressLevel = none)
      (run : WriterRuns (z.compressor shuffle compressLevel) xxh true
        (streamWrite maxDepth v).error (streamWrite maxDepth v).pushed s)
      (ended : s.phase = .finished hash) :
      Returns nthreads s.out hash

def serializedBytes (out : Bytes) (hash : UInt64) : Bytes :=
  let stream := (writeQdataHeader shuffle {}).write out
  let endPosition := stream.position
  ((writeQxHash hash stream).seekp endPosition).bytes.take endPosition

def Serializes (nthreads : Int) (bytes : Bytes) : Prop :=
  ∃ out hash, Returns z xxh compressLevel shuffle maxDepth v nthreads out hash ∧
    bytes = serializedBytes shuffle out hash

/-- A path after `save`, and the exception it ended with. -/
structure Saved where
  file : Option Bytes
  error : Option String

/-- `save_erased` with one thread. Opening the path, if it can be opened, empties it. -/
def saveErased (path : String) (isValid : Bool) (prior : Option Bytes) : Saved :=
  if ¬ isValid then ⟨prior,some ("failed to open file for writing: " ++ path)⟩
  else
    let written := writeQdataObject z xxh compressLevel shuffle maxDepth v
    let stream := (writeQdataHeader shuffle {}).write written.out
    match written.result with
    | .error msg => ⟨some stream.bytes,some msg⟩
    | .ok hash => ⟨some (writeQxHash hash stream).bytes,none⟩

end

section
variable (z : Zstd) (xxh : Bytes → UInt64) (validateChecksum : Bool) (maxDepth : Nat)

def readQdataObject (stream : Bytes) : ReadResult Object :=
  match readQdataHeader stream with
  | .error e => .error e
  | .ok (header,rest) =>
      if validateChecksum ∧ header.hash = 0 then
        .error (thrown "qdata input does not contain a stored checksum")
      else if validateChecksum ∧ readQxHash xxh rest ≠ header.hash then
        .error (thrown "qdata checksum mismatch")
      else readSingleThread (z.decompressor header.shuffle) rest maxDepth

def deserializeImpl (data : Bytes) : ReadResult Object :=
  readQdataObject z xxh validateChecksum maxDepth data

def readFileImpl (path : String) (file : Option Bytes) : ReadResult Object :=
  match file with
  | none => .error (thrown ("failed to open file for reading: " ++ path))
  | some bytes => readQdataObject z xxh validateChecksum maxDepth bytes

end

section
variable {z : Zstd} {xxh : Bytes → UInt64} {compressLevel : Int} {shuffle : Bool}
  {maxDepth : Nat} {v : Value}

theorem validateWriteArguments_eq_none :
    validateWriteArguments z compressLevel = none ↔
      z.minCLevel ≤ compressLevel ∧ compressLevel ≤ z.maxCLevel := by
  rw [validateWriteArguments]
  split
  · refine ⟨nofun,fun h => ?_⟩
    omega
  · refine ⟨fun _ => ?_,fun _ => rfl⟩
    omega

theorem writeQdataObject_ok (hz : validateWriteArguments z compressLevel = none)
    (he : (streamWrite maxDepth v).error = none) :
    writeQdataObject z xxh compressLevel shuffle maxDepth v =
      ⟨emitBlocks (z.compressor shuffle compressLevel) 0
          (blocksOf [] (streamWrite maxDepth v).pushed),
        .ok (digest xxh (emitBlocks (z.compressor shuffle compressLevel) 0
          (blocksOf [] (streamWrite maxDepth v).pushed)))⟩ := by
  rw [writeQdataObject,hz]
  simp only [writeSingleThread,he,BlockWriter.finish_eq]
  rfl

/-- A completed write, by whichever writer, met no limit and left that stream. -/
theorem Returns.stream {nthreads : Int} {out : Bytes} {hash : UInt64}
    (h : Returns z xxh compressLevel shuffle maxDepth v nthreads out hash) :
    (streamWrite maxDepth v).error = none ∧
      out = emitBlocks (z.compressor shuffle compressLevel) 0
        (blocksOf [] (streamWrite maxDepth v).pushed) ∧
      hash = digest xxh out := by
  cases h with
  | single one written =>
    cases hz : validateWriteArguments z compressLevel with
    | some msg => rw [writeQdataObject,hz] at written; cases written
    | none =>
      cases he : (streamWrite maxDepth v).error with
      | some msg =>
        rw [writeQdataObject,hz] at written
        simp only [writeSingleThread,he] at written
        cases written
      | none =>
        rw [writeQdataObject_ok hz he] at written
        cases written
        exact ⟨rfl,rfl,rfl⟩
  | multi more valid run ended =>
    cases he : (streamWrite maxDepth v).error with
    | some msg =>
      rw [he] at run
      rcases run.not_finished with h | h <;> rw [ended] at h <;> cases h
    | none => exact ⟨rfl,(run.finished ended).1,(run.finished ended).2⟩

variable (xxh shuffle) in
theorem returns_exists (hz : validateWriteArguments z compressLevel = none)
    (he : (streamWrite maxDepth v).error = none) (nthreads : Int) :
    ∃ out hash, Returns z xxh compressLevel shuffle maxDepth v nthreads out hash := by
  by_cases hn : nthreads ≤ 1
  · exact ⟨_,_,.single hn (writeQdataObject_ok hz he)⟩
  · have start : WriterRuns (z.compressor shuffle compressLevel) xxh true none
        (streamWrite maxDepth v).pushed _ := .refl
    obtain ⟨t,hash,ht,hphase⟩ := start.completes
    exact ⟨_,hash,.multi (by omega) hz (he ▸ ht) hphase⟩

theorem serializedBytes_eq (shuffle : Bool) (out : Bytes) (hash : UInt64) :
    serializedBytes shuffle out hash = storedHeader shuffle hash ++ out := by
  have hlen : ((writeQdataHeader shuffle {}).write out).position =
      (storedHeader shuffle hash ++ out).length := by
    rw [writeQdataHeader_write]
    simp
  rw [serializedBytes]
  simp only [OutStream.seekp,writeQxHash_bytes,hlen,List.take_length]

/-- A save that threw leaves a header without a checksum, and whole blocks in front of
where it stopped. -/
theorem saveErased_failed {path : String} {prior : Option Bytes} {msg : String}
    (h : (saveErased z xxh compressLevel shuffle maxDepth v path true prior).error = some msg) :
    ∃ blocks, (saveErased z xxh compressLevel shuffle maxDepth v path true prior).file =
        some (storedHeader shuffle 0 ++
          emitBlocks (z.compressor shuffle compressLevel) 0 blocks) ∧
      (blocks = [] ∨ (blocks = (cutCalls [] (streamWrite maxDepth v).pushed).1 ∧
        (streamWrite maxDepth v).error = some msg)) := by
  have hstream : ∀ out, ((writeQdataHeader shuffle {}).write out).bytes =
      storedHeader shuffle 0 ++ out := fun out => by rw [writeQdataHeader_write]
  rw [saveErased,if_neg (by simp)] at h ⊢
  rw [writeQdataObject] at h ⊢
  cases hz : validateWriteArguments z compressLevel with
  | some text =>
    simp only [hstream]
    exact ⟨[],rfl,.inl rfl⟩
  | none =>
    simp only [hz,writeSingleThread] at h ⊢
    cases he : (streamWrite maxDepth v).error with
    | none => rw [he] at h; cases h
    | some text =>
      rw [he] at h
      simp only [Option.some.injEq] at h
      simp only [hstream,BlockWriter.pushAll_eq,BlockWriter.sent,List.nil_append]
      exact ⟨_,rfl,.inr ⟨rfl,by rw [h]⟩⟩

end

end QData
