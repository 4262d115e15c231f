import QData.Constants
import QData.Lib.Pieces
/-! The single-threaded block writer, and the partition of a call sequence into blocks
that it carries out. -/
set_option autoImplicit false

namespace QData
open Words

def compressionError : Nat := 0

/-- What a `compress` call leaves behind: the size word it returns, and as many bytes at
the front of its destination, which holds `MAX_ZBLOCKSIZE`. -/
structure Compressed where
  zsize : Nat
  bytes : Bytes
  word : zsize < 2 ^ 32
  size_eq : bytes.length = compressedBlockSize zsize
  fits : compressedBlockSize zsize ≤ maxZblocksize

/-- A compressor at a fixed level. Its calls are numbered, since one that runs out of
memory now may have had enough before. -/
abbrev Compressor := Nat → Bytes → Compressed

def Compressed.emit (z : Compressed) : Bytes := toBytes 4 z.zsize ++ z.bytes

/-- `BlockCompressWriter`: what the stream was given, what the hasher was fed, the
compressions so far, and `block` up to `current_blocksize`. -/
structure BlockWriter where
  out : Bytes := []
  hashed : Bytes := []
  calls : Nat := 0
  block : Bytes := []
  deriving DecidableEq, Repr

namespace BlockWriter

def writeAndUpdate (bs : Bytes) (w : BlockWriter) : BlockWriter :=
  { w with out := w.out ++ bs, hashed := w.hashed ++ bs }

/-- Compress, then write and hash the size word and the bytes it counts. The size word is
not compared with `COMPRESSION_ERROR`. -/
def compressOut (cp : Compressor) (src : Bytes) (w : BlockWriter) : BlockWriter :=
  let z := cp w.calls src
  let w := { w with calls := w.calls+1 }
  writeAndUpdate z.bytes (writeAndUpdate (toBytes 4 z.zsize) w)

def flush (cp : Compressor) (w : BlockWriter) : BlockWriter :=
  if w.block.length > 0 then { compressOut cp w.block w with block := [] } else w

def flushFull (cp : Compressor) (w : BlockWriter) : BlockWriter :=
  if w.block.length ≥ maxBlocksize then w.flush cp else w

def topUp (inbuffer : Bytes) (w : BlockWriter) : BlockWriter × Bytes :=
  if w.block.length > 0 then
    let addLength := min inbuffer.length (maxBlocksize - w.block.length)
    ({ w with block := w.block ++ inbuffer.take addLength },inbuffer.drop addLength)
  else (w,inbuffer)

/-- Full blocks go out directly from the caller's buffer. -/
def pushFullBlocks (cp : Compressor) (w : BlockWriter) (rest : Bytes) : BlockWriter × Bytes :=
  if rest.length ≥ maxBlocksize then
    pushFullBlocks cp (w.compressOut cp (rest.take maxBlocksize)) (rest.drop maxBlocksize)
  else (w,rest)
termination_by rest.length
decreasing_by simp only [List.length_drop,maxBlocksize] at *; omega

def pushData (cp : Compressor) (w : BlockWriter) (inbuffer : Bytes) : BlockWriter :=
  let (w,rest) := (w.flushFull cp).topUp inbuffer
  let (w,rest) := (w.flushFull cp).pushFullBlocks cp rest
  if rest.length > 0 then { w with block := rest } else w

def pushPodContiguous (w : BlockWriter) (pod : Bytes) : BlockWriter :=
  { w with block := w.block ++ pod }

def pushPod (cp : Compressor) (w : BlockWriter) (pod : Bytes) : BlockWriter :=
  (if w.block.length > minBlocksize then w.flush cp else w).pushPodContiguous pod

def push (cp : Compressor) (w : BlockWriter) : PushOp → BlockWriter
  | .pod bs => w.pushPod cp bs
  | .podContiguous bs => w.pushPodContiguous bs
  | .data bs => w.pushData cp bs

def pushAll (cp : Compressor) (w : BlockWriter) (ops : List PushOp) : BlockWriter :=
  ops.foldl (push cp) w

end BlockWriter

/-- `xxHashEnv::digest` over everything it was fed; zero is kept free as a sentinel. -/
def digest (xxh : Bytes → UInt64) (fed : Bytes) : UInt64 :=
  if xxh fed = 0 then 1 else xxh fed

def BlockWriter.finish (cp : Compressor) (xxh : Bytes → UInt64) (w : BlockWriter) :
    BlockWriter × UInt64 :=
  (w.flush cp,digest xxh (w.flush cp).hashed)

/-! What a block is for: a call sequence is cut into blocks, and a block goes out when it
is full, when a header would not fit behind it, or at the end. -/

/-- The blocks completed by one call on top of a current block, and the block after it. -/
def cutCall (block : Bytes) : PushOp → List Bytes × Bytes
  | .pod bs => if block.length > minBlocksize then ([block],bs) else ([],block ++ bs)
  | .podContiguous bs => ([],block ++ bs)
  | .data bs =>
      if block.length ≥ maxBlocksize then
        (block :: (Chunks.cut maxBlocksize bs).1,(Chunks.cut maxBlocksize bs).2)
      else Chunks.cut maxBlocksize (block ++ bs)

def cutCalls (block : Bytes) : List PushOp → List Bytes × Bytes
  | [] => ([],block)
  | op :: ops =>
      ((cutCall block op).1 ++ (cutCalls (cutCall block op).2 ops).1,
        (cutCalls (cutCall block op).2 ops).2)

def lastBlock (block : Bytes) : List Bytes := if block.length > 0 then [block] else []

/-- All blocks of a call sequence ended by `finish()`. -/
def blocksOf (block : Bytes) (ops : List PushOp) : List Bytes :=
  (cutCalls block ops).1 ++ lastBlock (cutCalls block ops).2

/-- The stream of a block sequence, compressed from call number `k` on. -/
def emitBlocks (cp : Compressor) : Nat → List Bytes → Bytes
  | _, [] => []
  | k, b :: bs => (cp k b).emit ++ emitBlocks cp (k+1) bs

@[simp] theorem emitBlocks_nil (cp : Compressor) (k : Nat) : emitBlocks cp k [] = [] := rfl

theorem emitBlocks_append (cp : Compressor) (k : Nat) (xs ys : List Bytes) :
    emitBlocks cp k (xs ++ ys) = emitBlocks cp k xs ++ emitBlocks cp (k+xs.length) ys := by
  induction xs generalizing k with
  | nil => rfl
  | cons x xs ih =>
    simp only [List.cons_append,emitBlocks,ih,List.length_cons,List.append_assoc]
    congr 3
    omega

theorem cutCalls_append (block : Bytes) (xs ys : List PushOp) :
    cutCalls block (xs ++ ys) =
      ((cutCalls block xs).1 ++ (cutCalls (cutCalls block xs).2 ys).1,
        (cutCalls (cutCalls block xs).2 ys).2) := by
  induction xs generalizing block with
  | nil => rfl
  | cons x xs ih => simp [cutCalls,ih]

theorem cutCall_flatten (block : Bytes) (op : PushOp) :
    (cutCall block op).1.flatten ++ (cutCall block op).2 = block ++ op.bytes := by
  cases op with
  | pod bs =>
    simp only [cutCall]
    split <;> simp [PushOp.bytes]
  | podContiguous bs => simp [cutCall,PushOp.bytes]
  | data bs =>
    simp only [cutCall]
    split
    · simp [PushOp.bytes,Chunks.cut_flatten]
    · rw [Chunks.cut_flatten,PushOp.bytes]

theorem cutCalls_flatten (block : Bytes) (ops : List PushOp) :
    (cutCalls block ops).1.flatten ++ (cutCalls block ops).2 = block ++ pushedBytes ops := by
  induction ops generalizing block with
  | nil => simp [cutCalls]
  | cons op ops ih =>
    rw [cutCalls,List.flatten_append,List.append_assoc,ih,← List.append_assoc,
      cutCall_flatten,pushedBytes_cons,List.append_assoc]

theorem lastBlock_flatten (block : Bytes) : (lastBlock block).flatten = block := by
  by_cases h : block.length > 0
  · simp [lastBlock,h]
  · have hn : block = [] := List.eq_nil_of_length_eq_zero (by omega)
    simp [lastBlock,hn]

theorem blocksOf_flatten (block : Bytes) (ops : List PushOp) :
    (blocksOf block ops).flatten = block ++ pushedBytes ops := by
  rw [blocksOf,List.flatten_append,lastBlock_flatten,cutCalls_flatten]

def BlockWriter.sent (cp : Compressor) (w : BlockWriter) (blocks : List Bytes)
    (block : Bytes) : BlockWriter :=
  { out := w.out ++ emitBlocks cp w.calls blocks,
    hashed := w.hashed ++ emitBlocks cp w.calls blocks,
    calls := w.calls+blocks.length,
    block := block }

theorem BlockWriter.sent_nil (cp : Compressor) (w : BlockWriter) (block : Bytes) :
    w.sent cp [] block = { w with block := block } := by simp [BlockWriter.sent]

theorem BlockWriter.sent_sent (cp : Compressor) (w : BlockWriter) (xs ys : List Bytes)
    (b c : Bytes) : (w.sent cp xs b).sent cp ys c = w.sent cp (xs ++ ys) c := by
  simp [BlockWriter.sent,emitBlocks_append,Nat.add_assoc]

theorem BlockWriter.compressOut_eq (cp : Compressor) (src : Bytes) (w : BlockWriter) :
    w.compressOut cp src = w.sent cp [src] w.block := by
  simp [BlockWriter.compressOut,BlockWriter.writeAndUpdate,BlockWriter.sent,emitBlocks,
    Compressed.emit]

theorem BlockWriter.flush_eq (cp : Compressor) (w : BlockWriter) :
    w.flush cp = w.sent cp (lastBlock w.block) [] := by
  by_cases h : w.block.length > 0
  · simp [BlockWriter.flush,lastBlock,if_pos h,BlockWriter.compressOut_eq,BlockWriter.sent]
  · have hn : w.block = [] := List.eq_nil_of_length_eq_zero (by omega)
    rw [BlockWriter.flush,if_neg h,lastBlock,if_neg h,BlockWriter.sent_nil]
    cases w
    simp_all

theorem BlockWriter.pushFullBlocks_eq (cp : Compressor) (w : BlockWriter) (rest : Bytes) :
    w.pushFullBlocks cp rest =
      (w.sent cp (Chunks.cut maxBlocksize rest).1 w.block,(Chunks.cut maxBlocksize rest).2) := by
  induction w, rest using BlockWriter.pushFullBlocks.induct cp with
  | case1 w rest h ih =>
    rw [BlockWriter.pushFullBlocks,if_pos h,ih,Chunks.cut_long (by decide) h,
      BlockWriter.compressOut_eq,BlockWriter.sent_sent]
    rfl
  | case2 w rest h =>
    rw [BlockWriter.pushFullBlocks,if_neg h,Chunks.cut_short (by omega),BlockWriter.sent_nil]

theorem BlockWriter.sent_block (cp : Compressor) (w : BlockWriter) (xs : List Bytes)
    (block : Bytes) : (w.sent cp xs block).block = block := rfl

theorem BlockWriter.pushFullBlocks_tail (cp : Compressor) {w : BlockWriter}
    (h : w.block = []) (rest : Bytes) :
    (let r := w.pushFullBlocks cp rest
     if r.2.length > 0 then { r.1 with block := r.2 } else r.1) =
      w.sent cp (Chunks.cut maxBlocksize rest).1 (Chunks.cut maxBlocksize rest).2 := by
  rw [BlockWriter.pushFullBlocks_eq]
  simp only
  split
  · rfl
  · next hz =>
    have hn : (Chunks.cut maxBlocksize rest).2 = [] := List.eq_nil_of_length_eq_zero (by omega)
    rw [hn,h]

theorem BlockWriter.flushFull_short (cp : Compressor) {w : BlockWriter}
    (h : w.block.length < maxBlocksize) : w.flushFull cp = w := by
  rw [BlockWriter.flushFull,if_neg (by omega)]

theorem BlockWriter.flushFull_full (cp : Compressor) {w : BlockWriter}
    (h : maxBlocksize ≤ w.block.length) : w.flushFull cp = w.sent cp [w.block] [] := by
  have hp : w.block.length > 0 := Nat.lt_of_lt_of_le (by decide) h
  rw [BlockWriter.flushFull,if_pos h,BlockWriter.flush_eq,lastBlock,if_pos hp]

theorem BlockWriter.topUp_empty {w : BlockWriter} (h : w.block = []) (bs : Bytes) :
    w.topUp bs = (w,bs) := by
  rw [BlockWriter.topUp,if_neg (by simp [h])]

theorem BlockWriter.pushData_eq (cp : Compressor) (w : BlockWriter) (bs : Bytes) :
    w.pushData cp bs = w.sent cp (cutCall w.block (.data bs)).1 (cutCall w.block (.data bs)).2 := by
  rw [BlockWriter.pushData,cutCall]
  by_cases hfull : maxBlocksize ≤ w.block.length
  · rw [if_pos hfull,BlockWriter.flushFull_full cp hfull,BlockWriter.topUp_empty rfl]
    simp only
    rw [BlockWriter.flushFull_short cp (w := w.sent cp [w.block] [])
        (by rw [BlockWriter.sent_block]; decide),
      BlockWriter.pushFullBlocks_tail cp rfl,BlockWriter.sent_sent]
    rfl
  rw [if_neg hfull,BlockWriter.flushFull_short cp (by omega)]
  by_cases hempty : w.block.length > 0
  · rw [BlockWriter.topUp,if_pos hempty]
    by_cases hroom : bs.length < maxBlocksize - w.block.length
    · -- everything fits behind the block, and nothing is left for the later branches
      have hmin : min bs.length (maxBlocksize - w.block.length) = bs.length := by omega
      have hlen : (w.block ++ bs).length < maxBlocksize := by simp; omega
      simp only [hmin,List.take_length,List.drop_length]
      rw [BlockWriter.flushFull_short cp hlen,BlockWriter.pushFullBlocks_eq,
        Chunks.cut_short (l := []) (by decide),Chunks.cut_short hlen]
      simp [BlockWriter.sent_nil]
    · -- the block is filled up and goes out before the rest is cut
      have hmin : min bs.length (maxBlocksize - w.block.length) =
          maxBlocksize - w.block.length := by omega
      have hlen : (w.block ++ bs.take (maxBlocksize - w.block.length)).length = maxBlocksize := by
        simp; omega
      have htake : (w.block ++ bs).take maxBlocksize =
          w.block ++ bs.take (maxBlocksize - w.block.length) := by
        rw [List.take_append,List.take_of_length_le (by omega)]
      have hdrop : (w.block ++ bs).drop maxBlocksize =
          bs.drop (maxBlocksize - w.block.length) := by
        rw [List.drop_append,List.drop_of_length_le (by omega),List.nil_append]
      simp only [hmin]
      rw [BlockWriter.flushFull_full cp (Nat.le_of_eq hlen.symm),
        BlockWriter.pushFullBlocks_tail cp rfl,
        Chunks.cut_long (l := w.block ++ bs) (by decide) (by simp; omega),htake,hdrop]
      simp only [BlockWriter.sent,emitBlocks,List.length_cons,List.length_nil,List.append_nil,
        List.append_assoc,BlockWriter.mk.injEq,true_and,and_true]
      omega
  · have hn : w.block = [] := List.eq_nil_of_length_eq_zero (by omega)
    rw [BlockWriter.topUp_empty hn]
    simp only
    rw [BlockWriter.flushFull_short cp (by rw [hn]; decide),
      BlockWriter.pushFullBlocks_tail cp hn,hn,List.nil_append]

theorem BlockWriter.push_eq (cp : Compressor) (w : BlockWriter) (op : PushOp) :
    w.push cp op = w.sent cp (cutCall w.block op).1 (cutCall w.block op).2 := by
  cases op with
  | data bs => exact w.pushData_eq cp bs
  | podContiguous bs =>
    simp [BlockWriter.push,BlockWriter.pushPodContiguous,cutCall,BlockWriter.sent_nil]
  | pod bs =>
    rw [BlockWriter.push,BlockWriter.pushPod,cutCall]
    by_cases h : w.block.length > minBlocksize
    · have hp : w.block.length > 0 := Nat.lt_of_le_of_lt (Nat.zero_le _) h
      rw [if_pos h,if_pos h,BlockWriter.flush_eq,lastBlock,if_pos hp]
      rfl
    · rw [if_neg h,if_neg h]
      simp [BlockWriter.pushPodContiguous,BlockWriter.sent_nil]

theorem BlockWriter.pushAll_eq (cp : Compressor) (w : BlockWriter) (ops : List PushOp) :
    w.pushAll cp ops = w.sent cp (cutCalls w.block ops).1 (cutCalls w.block ops).2 := by
  induction ops generalizing w with
  | nil =>
    simp only [BlockWriter.pushAll,List.foldl_nil,cutCalls,BlockWriter.sent_nil]
  | cons op ops ih =>
    have hstep : w.pushAll cp (op :: ops) = (w.push cp op).pushAll cp ops := rfl
    rw [hstep,ih,BlockWriter.push_eq,BlockWriter.sent_block,BlockWriter.sent_sent,cutCalls]

/-- What a completed write leaves on the stream, and its hash. -/
theorem BlockWriter.finish_eq (cp : Compressor) (xxh : Bytes → UInt64) (ops : List PushOp) :
    (({} : BlockWriter).pushAll cp ops).finish cp xxh =
      (({} : BlockWriter).sent cp (blocksOf [] ops) [],
        digest xxh (emitBlocks cp 0 (blocksOf [] ops))) := by
  have h : (({} : BlockWriter).pushAll cp ops).flush cp =
      ({} : BlockWriter).sent cp (blocksOf [] ops) [] := by
    rw [BlockWriter.flush_eq,BlockWriter.pushAll_eq,BlockWriter.sent_block,
      BlockWriter.sent_sent,blocksOf]
  rw [BlockWriter.finish,h]
  simp [BlockWriter.sent]

end QData
