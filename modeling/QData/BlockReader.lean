import QData.Deserializer
/-! The block readers: how the next block is taken from a stream, and the calls that copy
data out of blocks. -/
set_option autoImplicit false

namespace QData
open Words Requests

/-- A decompressed block. Every decompressor writes into `MAX_BLOCKSIZE` bytes. -/
abbrev Block := { bs : Bytes // bs.length ≤ maxBlocksize }

/-- `decompress` on the bytes read and the size word; an error is a size of zero. There is
nothing to decompress in an empty input. -/
structure Decompressor where
  decompress : Bytes → Nat → Block
  nothing : ∀ zsize, (decompress [] zsize).1 = []

inductive Zblock where
  | noSize : Zblock
  | oversized : Zblock
  | truncated : Zblock
  | zblock (zsize : Nat) (zbytes : Bytes) (rest : Bytes) : Zblock
  deriving DecidableEq, Repr

def readZblock (stream : Bytes) : Zblock :=
  if stream.length < 4 then .noSize
  else
    let zsize := toNat (stream.take 4)
    let zbytes := compressedBlockSize zsize
    let rest := stream.drop 4
    if compressedBlockSizeFitsBuffer zsize then
      if rest.length < zbytes then .truncated
      else .zblock zsize (rest.take zbytes) (rest.drop zbytes)
    else .oversized

theorem readZblock_rest {stream zbytes rest : Bytes} {zsize : Nat}
    (h : readZblock stream = .zblock zsize zbytes rest) : rest.length < stream.length := by
  unfold readZblock at h
  split at h
  · cases h
  · simp only at h
    split at h
    · split at h
      · cases h
      · simp only [Zblock.zblock.injEq] at h
        obtain ⟨_,_,rfl⟩ := h
        simp only [List.length_drop]
        omega
    · cases h

/-- Where a block reader draws its blocks from. No source hands out blocks forever. -/
structure BlockSource (σ : Type) where
  fetch : σ → Except (Halt ReadError) (Block × σ)
  budget : σ → Nat
  fetch_budget : ∀ s b s', fetch s = .ok (b,s') → budget s' < budget s

def cleanupHalt (msg : String) : Halt ReadError := .error (.cleanup msg)

/-- The body of `decompress_block` and `decompress_direct` of the single-threaded reader. -/
def decompressNext (dp : Decompressor) (stream : Bytes) :
    Except (Halt ReadError) (Block × Bytes) :=
  match readZblock stream with
  | .noSize => .error (cleanupHalt "Unexpected end of file while reading next block size")
  | .oversized => .error (cleanupHalt "Compressed block size exceeds internal maximum")
  | .truncated => .error (cleanupHalt "Unexpected end of file while reading next block")
  | .zblock zsize zbytes rest =>
      if (dp.decompress zbytes zsize).1 = [] then .error (cleanupHalt "Decompression error")
      else .ok (dp.decompress zbytes zsize,rest)

theorem decompressNext_ok {dp : Decompressor} {stream rest : Bytes} {b : Block}
    (h : decompressNext dp stream = .ok (b,rest)) :
    ∃ zsize zbytes, readZblock stream = .zblock zsize zbytes rest ∧ b.1 ≠ [] ∧
      dp.decompress zbytes zsize = b := by
  unfold decompressNext at h
  split at h
  · cases h
  · cases h
  · cases h
  · next hz =>
    split at h
    · cases h
    · next hne =>
      simp only [Except.ok.injEq,Prod.mk.injEq] at h
      obtain ⟨rfl,rfl⟩ := h
      exact ⟨_,_,hz,hne,rfl⟩

theorem decompressNext_budget {dp : Decompressor} {stream rest : Bytes} {b : Block}
    (h : decompressNext dp stream = .ok (b,rest)) : rest.length < stream.length := by
  obtain ⟨_,_,hz,_,_⟩ := decompressNext_ok h
  exact readZblock_rest hz

def streamSource (dp : Decompressor) : BlockSource Bytes where
  fetch := decompressNext dp
  budget := List.length
  fetch_budget := fun _ _ _ h => decompressNext_budget h

/-- Blocks that were handed over, and how asking for one more ends. -/
structure Feed where
  blocks : List Block
  stop : Halt ReadError

def Feed.next (f : Feed) : Except (Halt ReadError) (Block × Feed) :=
  match f.blocks with
  | [] => .error f.stop
  | b :: bs => .ok (b,{ f with blocks := bs })

def feedSource : BlockSource Feed where
  fetch := Feed.next
  budget := fun f => f.blocks.length
  fetch_budget := by
    intro f b f' h
    unfold Feed.next at h
    split at h
    · cases h
    · next hb =>
      simp only [Except.ok.injEq,Prod.mk.injEq] at h
      obtain ⟨_,rfl⟩ := h
      simp [hb]

/-- The fields the two block readers share; `source` stands for where their blocks come
from. -/
structure BlockReader (σ : Type) where
  source : σ
  block : Bytes
  currentBlocksize : Nat
  dataOffset : Nat

def BlockReader.start {σ : Type} (source : σ) : BlockReader σ := ⟨source,[],0,0⟩

def sub32 (a b : Nat) : Nat := (a + 2 ^ 32 - b) % 2 ^ 32

abbrev BlockMemory := {m : Bytes // m.length = maxBlocksize}

def writeAt (out : Bytes) (offset : Nat) (bs : Bytes) : Bytes :=
  out.take offset ++ bs ++ out.drop (offset+bs.length)

theorem writeAt_nil (out : Bytes) (offset : Nat) : writeAt out offset [] = out := by
  simp [writeAt]

theorem length_writeAt {out bs : Bytes} {offset : Nat} (h : offset+bs.length ≤ out.length) :
    (writeAt out offset bs).length = out.length := by
  simp only [writeAt,List.length_append,List.length_take,List.length_drop]
  omega

theorem writeAt_before {out bs : Bytes} {offset start size : Nat} (hs : start+size ≤ offset)
    (ho : offset ≤ out.length) :
    ((writeAt out offset bs).drop start).take size = (out.drop start).take size := by
  have hlen : (out.take offset).length = offset := by rw [List.length_take]; omega
  rw [writeAt,List.append_assoc,List.drop_append_of_le_length (by omega),
    List.take_append_of_le_length (by rw [List.length_drop]; omega),List.drop_take,List.take_take]
  congr 1
  omega

theorem writeAt_inside {out bs : Bytes} {offset : Nat} (ho : offset ≤ out.length) :
    ((writeAt out offset bs).drop offset).take bs.length = bs := by
  have hlen : (out.take offset).length = offset := by rw [List.length_take]; omega
  rw [writeAt,List.append_assoc,List.drop_left' hlen,List.take_left]

def corrupted : Halt ReadError := cleanupHalt "Corrupted block data"

namespace BlockReader
variable {σ : Type} (S : BlockSource σ)

/-- `decompress_block` or `get_new_block`: the next block becomes the current one; the
offset is left to the caller. -/
def newBlock (st : BlockReader σ) : Except (Halt ReadError) (BlockReader σ) :=
  match S.fetch st.source with
  | .error e => .error e
  | .ok (b,source) => .ok ⟨source,b.1,b.1.length,st.dataOffset⟩

def takePod (size : Nat) (st : BlockReader σ) : Except (Halt ReadError) (Bytes × BlockReader σ) :=
  if sub32 st.currentBlocksize st.dataOffset < size then .error corrupted
  else .ok ((st.block.drop st.dataOffset).take size,{ st with dataOffset := st.dataOffset+size })

def getPod (size : Nat) (st : BlockReader σ) :
    Except (Halt ReadError) (Bytes × BlockReader σ) :=
  if st.currentBlocksize = st.dataOffset then
    match st.newBlock S with
    | .error e => .error e
    | .ok st => takePod size { st with dataOffset := 0 }
  else takePod size st

def getPodContiguous (size : Nat) (st : BlockReader σ) :
    Except (Halt ReadError) (Bytes × BlockReader σ) := takePod size st

/-- The loop of `get_data` over full blocks. `bytes_accounted` is a `uint32_t`. The
single-threaded reader decompresses into the caller's buffer and leaves its own block as
it is, the other one makes the block current: `keep` says which. -/
def getDataLoop (keep : Bytes → Bytes → Bytes) (len : Nat) (out : Bytes)
    (bytesAccounted : Nat) (st : BlockReader σ) :
    Except (Halt ReadError) (Bytes × Nat × BlockReader σ) :=
  if len - bytesAccounted ≥ maxBlocksize then
    match h : S.fetch st.source with
    | .error e => .error e
    | .ok (b,source) =>
        if b.1.length ≠ maxBlocksize then .error corrupted
        else
          getDataLoop keep len (writeAt out bytesAccounted b.1)
            ((bytesAccounted+maxBlocksize) % 2 ^ 32)
            ⟨source,keep st.block b.1,b.1.length,maxBlocksize⟩
  else .ok (out,bytesAccounted,st)
termination_by S.budget st.source
decreasing_by exact S.fetch_budget _ _ _ h

section
variable {S} {keep : Bytes → Bytes → Bytes} {len : Nat} {out : Bytes} {acc : Nat}
  {st : BlockReader σ}

theorem getDataLoop_done (h : ¬ len - acc ≥ maxBlocksize) :
    getDataLoop S keep len out acc st = .ok (out,acc,st) := by
  rw [getDataLoop,if_neg h]

theorem getDataLoop_error (h : len - acc ≥ maxBlocksize) {e : Halt ReadError}
    (hf : S.fetch st.source = .error e) : getDataLoop S keep len out acc st = .error e := by
  rw [getDataLoop,if_pos h]
  split
  · next hf' => rw [hf] at hf'; cases hf'; rfl
  · next hf' => rw [hf] at hf'; cases hf'

theorem getDataLoop_block (h : len - acc ≥ maxBlocksize) {b : Block} {source : σ}
    (hf : S.fetch st.source = .ok (b,source)) :
    getDataLoop S keep len out acc st =
      if b.1.length ≠ maxBlocksize then .error corrupted
      else getDataLoop S keep len (writeAt out acc b.1) ((acc+maxBlocksize) % 2 ^ 32)
        ⟨source,keep st.block b.1,b.1.length,maxBlocksize⟩ := by
  rw [getDataLoop,if_pos h]
  split
  · next hf' => rw [hf] at hf'; cases hf'
  · next hf' => rw [hf] at hf'; cases hf'; rfl

end

def getData (keep : Bytes → Bytes → Bytes) (len : Nat) (st : BlockReader σ) :
    Except (Halt ReadError) (Bytes × BlockReader σ) :=
  if sub32 st.currentBlocksize st.dataOffset ≥ len then
    .ok ((st.block.drop st.dataOffset).take len,{ st with dataOffset := st.dataOffset+len })
  else
    let bytesAccounted := sub32 st.currentBlocksize st.dataOffset
    let out := (st.block.drop st.dataOffset).take bytesAccounted
    match getDataLoop S keep len out bytesAccounted st with
    | .error e => .error e
    | .ok (out,bytesAccounted,st) =>
        if len - bytesAccounted > 0 then
          match st.newBlock S with
          | .error e => .error e
          | .ok st =>
              if st.currentBlocksize < len - bytesAccounted then .error corrupted
              else
                .ok (writeAt out bytesAccounted (st.block.take (len - bytesAccounted)),
                  { st with dataOffset := len - bytesAccounted })
        else .ok (out,st)

end BlockReader

/-- `BlockCompressReader`: `decompress_direct` leaves the block buffer untouched. -/
def blockCompressReader {σ : Type} (S : BlockSource σ) :
    Handler GetOp Bytes ReadError (BlockReader σ)
  | .pod size => BlockReader.getPod S size
  | .podContiguous size => BlockReader.getPodContiguous size
  | .data len => BlockReader.getData S (fun old _ => old) len

/-- `BlockCompressReaderMT`: a full block becomes the current block and is copied out. -/
def blockCompressReaderMT {σ : Type} (S : BlockSource σ) :
    Handler GetOp Bytes ReadError (BlockReader σ)
  | .pod size => BlockReader.getPod S size
  | .podContiguous size => BlockReader.getPodContiguous size
  | .data len => BlockReader.getData S (fun _ new => new) len

/-- `read_single_thread`; `finish()` of its block reader does nothing. -/
def readSingleThread (dp : Decompressor) (stream : Bytes) (maxDepth : Nat) :
    ReadResult Object :=
  ((streamRead maxDepth).run (blockCompressReader (streamSource dp)) (.start stream)).map
    Prod.fst

end QData
