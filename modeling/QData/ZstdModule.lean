import Mathlib.Data.Nat.Bitwise
import QData.BlockStream
import QData.Lib.Lanes
/-! The compressors and decompressors that call zstd, with block shuffling and without. -/
set_option autoImplicit false

namespace QData
open Words

def shuffleHeuristicBlocksize : Nat := 32768
def shuffleElemsize : Nat := 8

/-- Declared as `uint32_t`, and `-1` again as zstd's `int`. -/
def shuffleHeuristicCl : Int := -1

def highCompressLevelThreshold : Int := 14
def highHeuristicThreshold : Rat := -1/4
def lowHeuristicThreshold : Rat := 0

def shuffleMask : Nat := 2 ^ 31

/-- `blosc_shuffle`: `dest[j*neblock_quot+i] = src[i*type_size+j]`. -/
def bloscShuffle (bytesoftype : Nat) (src : Bytes) : Bytes :=
  Transposition.transpose 0 (src.length / bytesoftype) bytesoftype src

def bloscUnshuffle (bytesoftype : Nat) (src : Bytes) : Bytes :=
  Transposition.transpose 0 bytesoftype (src.length / bytesoftype) src

/-- What zstd writes to a destination of `MAX_ZBLOCKSIZE` bytes. -/
abbrev Frame := { bs : Bytes // bs.length ≤ maxZblocksize }

/-- The destination of a call, and the `shuffleblock` behind it. -/
structure Buffers where
  dst : Bytes
  shuffleblock : Bytes

/-- What the calls below rely on: the zstd library, the shuffle predictor, and whatever the
buffers hold before the `k`-th block. Compressions are numbered by block and, within one
block, in program order; an error is `none`. -/
structure Zstd where
  minCLevel : Int
  maxCLevel : Int
  compressCCtx : Nat → Nat → Bytes → Int → Option Frame
  decompressDCtx : Bytes → Option Block
  decompress_nothing : ∀ b, decompressDCtx [] = some b → b.1 = []
  predictXgboostImpl : List Int → Rat
  buffers : Nat → Buffers

/-- zstd decompression inverts compression. -/
def Zstd.Inverts (z : Zstd) : Prop :=
  ∀ k i src compressLevel f, src.length ≤ maxBlocksize →
    z.compressCCtx k i src compressLevel = some f →
      ∃ b, z.decompressDCtx f.1 = some b ∧ b.1 = src

/-- `src` into a buffer: whole elements by `blosc_shuffle` or `blosc_unshuffle`, then the
remainder as it is. -/
def moveBlock (move : Nat → Bytes → Bytes) (src buffer : Bytes) : Bytes :=
  let whole := src.length - src.length % shuffleElemsize
  writeAt (writeAt buffer 0 (move shuffleElemsize (src.take whole))) whole (src.drop whole)

section
variable (z : Zstd) (k : Nat) (src : Bytes) (compressLevel : Int)

/-- `ZstdCompressor::compress`: the size word and the buffers, `none` for
`COMPRESSION_ERROR`. -/
def zstdCompress (buf : Buffers) : Option (Nat × Buffers) := do
  let output ← z.compressCCtx k 0 src compressLevel
  some (output.1.length,{ buf with dst := writeAt buf.dst 0 output.1 })

inductive Heuristic where
  | useHeuristic | dontUseHeuristic
  deriving DecidableEq, Repr

def blockOffset (srcSize i : Nat) : Nat := srcSize / 4*i

def sampleWindow (i : Nat) (buf : Buffers) : Option (List Int × Buffers) := do
  let window := (src.drop (blockOffset src.length i)).take shuffleHeuristicBlocksize
  let shuffleblock := writeAt buf.shuffleblock 0 (bloscShuffle shuffleElemsize window)
  let shuf ← z.compressCCtx k (2*i) (shuffleblock.take shuffleHeuristicBlocksize)
    shuffleHeuristicCl
  let noshuf ← z.compressCCtx k (2*i+1) window shuffleHeuristicCl
  some ([(shuf.1.length : Int),(noshuf.1.length : Int)],
    ⟨writeAt (writeAt buf.dst 0 shuf.1) 0 noshuf.1,shuffleblock⟩)

def sampleWindows : List Nat → Buffers → Option (List Int × Buffers)
  | [], buf => some ([],buf)
  | i :: rest, buf => do
      let (features,buf) ← sampleWindow z k src i buf
      let (more,buf) ← sampleWindows rest buf
      some (features ++ more,buf)

def useShuffleHeuristic (threshold : Rat) (buf : Buffers) : Option (Heuristic × Buffers) :=
  if src.length < 8*shuffleHeuristicBlocksize then some (.dontUseHeuristic,buf)
  else do
    let (features,buf) ← sampleWindows z k src [0,1,2,3] buf
    if z.predictXgboostImpl (features ++ [compressLevel]) > threshold then
      some (.useHeuristic,buf)
    else some (.dontUseHeuristic,buf)

def zstdShuffleCompress (buf : Buffers) : Option (Nat × Buffers) := do
  let threshold :=
    if compressLevel ≥ highCompressLevelThreshold then highHeuristicThreshold
    else lowHeuristicThreshold
  let (heuristic,buf) ← useShuffleHeuristic z k src compressLevel threshold buf
  match heuristic with
  | .useHeuristic =>
      let shuffleblock := moveBlock bloscShuffle src buf.shuffleblock
      let withShuffle ← z.compressCCtx k 8 (shuffleblock.take src.length) compressLevel
      if compressLevel ≥ highCompressLevelThreshold then
        -- test both ways; until here the shuffled one is in a block of its own
        let noShuffle ← z.compressCCtx k 9 src compressLevel
        let dst := writeAt buf.dst 0 noShuffle.1
        if withShuffle.1.length < noShuffle.1.length then
          some (withShuffle.1.length ||| shuffleMask,⟨writeAt dst 0 withShuffle.1,shuffleblock⟩)
        else some (noShuffle.1.length,⟨dst,shuffleblock⟩)
      else
        some (withShuffle.1.length ||| shuffleMask,
          ⟨writeAt buf.dst 0 withShuffle.1,shuffleblock⟩)
  | .dontUseHeuristic =>
      let output ← z.compressCCtx k 8 src compressLevel
      some (output.1.length,{ buf with dst := writeAt buf.dst 0 output.1 })

end

section
variable (z : Zstd) (src : Bytes)

def zstdDecompress (srcSize : Nat) (buf : Buffers) : Option (Nat × Buffers) :=
  if srcSize > maxZblocksize then none
  else do
    let output ← z.decompressDCtx (src.take srcSize)
    some (output.1.length,{ buf with dst := writeAt buf.dst 0 output.1 })

/-- `ZstdShuffleDecompressor::decompress`; without the shuffle bit it is the same as above. -/
def zstdShuffleDecompress (zsize : Nat) (buf : Buffers) : Option (Nat × Buffers) :=
  if zsize &&& shuffleMask ≠ 0 then
    let srcSize := compressedBlockSize zsize
    if srcSize > maxZblocksize then none
    else do
      let output ← z.decompressDCtx (src.take srcSize)
      let shuffleblock := writeAt buf.shuffleblock 0 output.1
      some (output.1.length,
        ⟨moveBlock bloscUnshuffle (shuffleblock.take output.1.length) buf.dst,shuffleblock⟩)
  else zstdDecompress z src zsize buf

end

theorem writeAt_front (buffer bs : Bytes) : writeAt buffer 0 bs = bs ++ buffer.drop bs.length := by
  simp [writeAt]

theorem writeAt_behind (front rest bs : Bytes) :
    writeAt (front ++ rest) front.length bs = front ++ bs ++ rest.drop bs.length := by
  rw [writeAt,List.take_left,← List.drop_drop,List.drop_left]

def movedBytes (move : Nat → Bytes → Bytes) (src : Bytes) : Bytes :=
  let whole := src.length - src.length % shuffleElemsize
  move shuffleElemsize (src.take whole) ++ src.drop whole

def KeepsLength (move : Nat → Bytes → Bytes) : Prop :=
  ∀ bs, bs.length % shuffleElemsize = 0 → (move shuffleElemsize bs).length = bs.length

theorem bloscShuffle_length : KeepsLength bloscShuffle := by
  intro bs h
  rw [bloscShuffle,Transposition.length_transpose]
  exact Nat.mul_div_cancel' (Nat.dvd_of_mod_eq_zero h)

theorem bloscUnshuffle_length : KeepsLength bloscUnshuffle := by
  intro bs h
  rw [bloscUnshuffle,Transposition.length_transpose]
  exact Nat.div_mul_cancel (Nat.dvd_of_mod_eq_zero h)

section
variable {move : Nat → Bytes → Bytes}

theorem move_whole_length (hm : KeepsLength move) (src : Bytes) :
    (move shuffleElemsize (src.take (src.length - src.length % shuffleElemsize))).length =
      src.length - src.length % shuffleElemsize := by
  have hlen : (src.take (src.length - src.length % shuffleElemsize)).length =
      src.length - src.length % shuffleElemsize := by
    rw [List.length_take]
    omega
  rw [hm _ (by rw [hlen]; simp only [shuffleElemsize]; omega),hlen]

theorem movedBytes_length (hm : KeepsLength move) (src : Bytes) :
    (movedBytes move src).length = src.length := by
  have hle := Nat.mod_le src.length shuffleElemsize
  rw [movedBytes,List.length_append,move_whole_length hm,List.length_drop]
  omega

theorem moveBlock_eq (hm : KeepsLength move) (src buffer : Bytes) :
    moveBlock move src buffer = movedBytes move src ++ buffer.drop src.length := by
  have hle := Nat.mod_le src.length shuffleElemsize
  have hwhole := move_whole_length hm src
  simp only [moveBlock,movedBytes]
  generalize move shuffleElemsize (src.take (src.length - src.length % shuffleElemsize)) =
    moved at *
  rw [writeAt_front,← hwhole,writeAt_behind,List.drop_drop,List.length_drop]
  congr 2
  omega

end

theorem bloscUnshuffle_shuffle {bs : Bytes} (h : bs.length % shuffleElemsize = 0) :
    bloscUnshuffle shuffleElemsize (bloscShuffle shuffleElemsize bs) = bs := by
  have hcount : bs.length = bs.length / shuffleElemsize * shuffleElemsize :=
    (Nat.div_mul_cancel (Nat.dvd_of_mod_eq_zero h)).symm
  rw [bloscUnshuffle,bloscShuffle_length bs h]
  exact Transposition.transpose_transpose hcount

theorem movedBytes_inverse (src : Bytes) :
    movedBytes bloscUnshuffle (movedBytes bloscShuffle src) = src := by
  have hwhole := move_whole_length bloscShuffle_length src
  have hlen := movedBytes_length bloscShuffle_length src
  rw [movedBytes,hlen]
  simp only [movedBytes]
  rw [List.take_left' hwhole,List.drop_left' hwhole,bloscUnshuffle_shuffle,
    List.take_append_drop]
  rw [List.length_take]
  have hle := Nat.mod_le src.length shuffleElemsize
  simp only [shuffleElemsize] at *
  omega

/-! What the calls come to: a block is encoded plainly or shuffled, in a size word and the
front of the destination. -/

section
variable {z : Zstd} {shuffle : Bool} {k : Nat} {src : Bytes} {compressLevel : Int}

inductive Encoded (z : Zstd) (shuffle : Bool) (k : Nat) (src : Bytes) (compressLevel : Int) :
    Nat → Bytes → Prop
  | plain {i : Nat} {f : Frame} (rest : Bytes)
      (output : z.compressCCtx k i src compressLevel = some f) :
      Encoded z shuffle k src compressLevel f.1.length (f.1 ++ rest)
  | shuffled {i : Nat} {f : Frame} (rest : Bytes) (on : shuffle = true)
      (output : z.compressCCtx k i (movedBytes bloscShuffle src) compressLevel = some f) :
      Encoded z shuffle k src compressLevel (f.1.length ||| shuffleMask) (f.1 ++ rest)

theorem zstdCompress_encoded {buf : Buffers} {r : Nat × Buffers}
    (h : zstdCompress z k src compressLevel buf = some r) :
    Encoded z false k src compressLevel r.1 r.2.dst := by
  simp only [zstdCompress,Option.bind_eq_bind,Option.bind_eq_some_iff,Option.some.injEq] at h
  obtain ⟨f,hf,rfl⟩ := h
  simp only [writeAt_front]
  exact .plain _ hf

theorem zstdShuffleCompress_encoded {buf : Buffers} {r : Nat × Buffers}
    (h : zstdShuffleCompress z k src compressLevel buf = some r) :
    Encoded z true k src compressLevel r.1 r.2.dst := by
  simp only [zstdShuffleCompress,Option.bind_eq_bind,Option.bind_eq_some_iff] at h
  obtain ⟨⟨heuristic,buf₁⟩,_,h⟩ := h
  cases heuristic with
  | dontUseHeuristic =>
    simp only [Option.bind_eq_some_iff,Option.some.injEq] at h
    obtain ⟨f,hf,rfl⟩ := h
    simp only [writeAt_front]
    exact .plain _ hf
  | useHeuristic =>
    simp only [Option.bind_eq_some_iff] at h
    obtain ⟨f,hf,h⟩ := h
    rw [moveBlock_eq bloscShuffle_length,
      List.take_left' (movedBytes_length bloscShuffle_length src)] at hf
    split at h
    · simp only [Option.bind_eq_some_iff] at h
      obtain ⟨g,hg,h⟩ := h
      split at h
      · simp only [Option.some.injEq] at h
        subst h
        simp only [writeAt_front]
        exact .shuffled _ rfl hf
      · simp only [Option.some.injEq] at h
        subst h
        simp only [writeAt_front]
        exact .plain _ hg
    · simp only [Option.some.injEq] at h
      subst h
      simp only [writeAt_front]
      exact .shuffled _ rfl hf

theorem Frame.length_lt (f : Frame) : f.1.length < 2 ^ 31 :=
  Nat.lt_of_le_of_lt f.2 (by decide)

theorem Frame.or_mask (f : Frame) : f.1.length ||| shuffleMask = 2 ^ 31+f.1.length := by
  have hor := Nat.two_pow_add_eq_or_of_lt f.length_lt 1
  rw [Nat.mul_one] at hor
  rw [hor,Nat.or_comm,shuffleMask]

@[simp] theorem Frame.size_plain (f : Frame) : compressedBlockSize f.1.length = f.1.length :=
  Nat.mod_eq_of_lt f.length_lt

@[simp] theorem Frame.size_shuffled (f : Frame) :
    compressedBlockSize (f.1.length ||| shuffleMask) = f.1.length := by
  rw [f.or_mask,compressedBlockSize,blockMetadata,Nat.add_mod_left]
  exact f.size_plain

theorem Frame.mask_plain (f : Frame) : f.1.length &&& shuffleMask = 0 := by
  rw [shuffleMask,Nat.and_two_pow,Nat.testBit_lt_two_pow f.length_lt]
  rfl

theorem Frame.mask_shuffled (f : Frame) :
    (f.1.length ||| shuffleMask) &&& shuffleMask ≠ 0 := by
  rw [shuffleMask,Nat.and_two_pow,Nat.testBit_or,Nat.testBit_two_pow_self,Bool.or_true]
  decide

theorem Encoded.word {zsize : Nat} {dst : Bytes}
    (h : Encoded z shuffle k src compressLevel zsize dst) : zsize < 2 ^ 32 := by
  cases h with
  | @plain i f rest output =>
    have hlt := f.length_lt
    omega
  | @shuffled i f rest on output =>
    have hlt := f.length_lt
    rw [f.or_mask]
    omega

theorem Encoded.fits {zsize : Nat} {dst : Bytes}
    (h : Encoded z shuffle k src compressLevel zsize dst) :
    compressedBlockSize zsize ≤ maxZblocksize := by
  cases h with
  | @plain i f rest output =>
    rw [f.size_plain]
    exact f.2
  | @shuffled i f rest on output =>
    rw [f.size_shuffled]
    exact f.2

theorem Encoded.size_eq {zsize : Nat} {dst : Bytes}
    (h : Encoded z shuffle k src compressLevel zsize dst) :
    (dst.take (compressedBlockSize zsize)).length = compressedBlockSize zsize := by
  cases h with
  | @plain i f rest output => rw [f.size_plain,List.take_left]
  | @shuffled i f rest on output => rw [f.size_shuffled,List.take_left]

def Compressed.ofCall (call : Option (Nat × Buffers))
    (h : ∀ r, call = some r → Encoded z shuffle k src compressLevel r.1 r.2.dst) : Compressed where
  zsize := (call.map Prod.fst).getD compressionError
  bytes := (call.map fun r => r.2.dst.take (compressedBlockSize r.1)).getD []
  word := by
    cases call with
    | none => decide
    | some r => exact (h r rfl).word
  size_eq := by
    cases call with
    | none => rfl
    | some r => exact (h r rfl).size_eq
  fits := by
    cases call with
    | none => decide
    | some r => exact (h r rfl).fits

theorem Compressed.ofCall_cases {call : Option (Nat × Buffers)}
    (h : ∀ r, call = some r → Encoded z shuffle k src compressLevel r.1 r.2.dst) :
    (Compressed.ofCall call h).zsize = compressionError ∨
      ∃ zsize dst, Encoded z shuffle k src compressLevel zsize dst ∧
        (Compressed.ofCall call h).zsize = zsize ∧
        (Compressed.ofCall call h).bytes = dst.take (compressedBlockSize zsize) := by
  cases call with
  | none => exact .inl rfl
  | some r => exact .inr ⟨r.1,r.2.dst,h r rfl,rfl,rfl⟩

end

def front (call : Option (Nat × Buffers)) : Bytes :=
  match call with
  | none => []
  | some (size,buf) => buf.dst.take size

section
variable (z : Zstd) (src : Bytes)

def zstdOutput (n : Nat) : Block :=
  if n > maxZblocksize then ⟨[],Nat.zero_le _⟩
  else (z.decompressDCtx (src.take n)).getD ⟨[],Nat.zero_le _⟩

theorem zstdDecompress_front (srcSize : Nat) (buf : Buffers) :
    front (zstdDecompress z src srcSize buf) = (zstdOutput z src srcSize).1 := by
  unfold zstdDecompress zstdOutput
  split
  · rfl
  · cases z.decompressDCtx (src.take srcSize) with
    | none => rfl
    | some output =>
      simp only [Option.bind_eq_bind,Option.bind_some,Option.getD_some,front,writeAt_front]
      exact List.take_left

theorem zstdShuffleDecompress_front (zsize : Nat) (buf : Buffers) :
    front (zstdShuffleDecompress z src zsize buf) =
      if zsize &&& shuffleMask ≠ 0 then
        movedBytes bloscUnshuffle (zstdOutput z src (compressedBlockSize zsize)).1
      else (zstdOutput z src zsize).1 := by
  unfold zstdShuffleDecompress
  split
  · unfold zstdOutput
    simp only
    split
    · rfl
    · cases z.decompressDCtx (src.take (compressedBlockSize zsize)) with
      | none => rfl
      | some output =>
        simp only [Option.bind_eq_bind,Option.bind_some,Option.getD_some,front,writeAt_front,
          List.take_left,moveBlock_eq bloscUnshuffle_length]
        exact List.take_left' (movedBytes_length bloscUnshuffle_length output.1)
  · exact zstdDecompress_front z src zsize buf

end

section
variable {z : Zstd}

theorem zstdOutput_nil (n : Nat) : (zstdOutput z [] n).1 = [] := by
  unfold zstdOutput
  split
  · rfl
  · rw [List.take_nil]
    cases h : z.decompressDCtx [] with
    | none => rfl
    | some b => exact z.decompress_nothing b h

end

def zstdCompressor (z : Zstd) (compressLevel : Int) : Compressor := fun k src =>
  .ofCall (zstdCompress z k src compressLevel (z.buffers k)) fun _ => zstdCompress_encoded

def zstdShuffleCompressor (z : Zstd) (compressLevel : Int) : Compressor := fun k src =>
  .ofCall (zstdShuffleCompress z k src compressLevel (z.buffers k)) fun _ =>
    zstdShuffleCompress_encoded

def zstdDecompressor (z : Zstd) : Decompressor where
  decompress src zsize := ⟨front (zstdDecompress z src zsize (z.buffers 0)),by
    rw [zstdDecompress_front]
    exact (zstdOutput z src zsize).2⟩
  nothing zsize := by
    simp only [zstdDecompress_front]
    exact zstdOutput_nil zsize

def zstdShuffleDecompressor (z : Zstd) : Decompressor where
  decompress src zsize := ⟨front (zstdShuffleDecompress z src zsize (z.buffers 0)),by
    rw [zstdShuffleDecompress_front]
    split
    · rw [movedBytes_length bloscUnshuffle_length]
      exact (zstdOutput z src _).2
    · exact (zstdOutput z src zsize).2⟩
  nothing zsize := by
    simp only [zstdShuffleDecompress_front]
    split
    · rw [zstdOutput_nil]
      rfl
    · exact zstdOutput_nil zsize

/-- The compressor a write is instantiated with. -/
def Zstd.compressor (z : Zstd) (shuffle : Bool) (compressLevel : Int) : Compressor :=
  if shuffle then zstdShuffleCompressor z compressLevel else zstdCompressor z compressLevel

def Zstd.decompressor (z : Zstd) (shuffle : Bool) : Decompressor :=
  if shuffle then zstdShuffleDecompressor z else zstdDecompressor z

section
variable {z : Zstd} {shuffle : Bool} {k : Nat} {src : Bytes} {compressLevel : Int}

theorem Zstd.compressor_encoded :
    (z.compressor shuffle compressLevel k src).zsize = compressionError ∨
      ∃ zsize dst, Encoded z shuffle k src compressLevel zsize dst ∧
        (z.compressor shuffle compressLevel k src).zsize = zsize ∧
        (z.compressor shuffle compressLevel k src).bytes = dst.take (compressedBlockSize zsize) := by
  cases shuffle with
  | false => exact Compressed.ofCall_cases fun _ => zstdCompress_encoded
  | true => exact Compressed.ofCall_cases fun _ => zstdShuffleCompress_encoded

theorem zstdDecompress_frame {f : Frame} {b : Block} (h : z.decompressDCtx f.1 = some b)
    (buf : Buffers) :
    zstdDecompress z f.1 f.1.length buf =
      some (b.1.length,{ buf with dst := writeAt buf.dst 0 b.1 }) := by
  unfold zstdDecompress
  rw [if_neg (Nat.not_lt.mpr f.2),List.take_length,h]
  rfl

theorem zstdShuffleDecompress_plain {f : Frame} {b : Block}
    (h : z.decompressDCtx f.1 = some b) (buf : Buffers) :
    zstdShuffleDecompress z f.1 f.1.length buf =
      some (b.1.length,{ buf with dst := writeAt buf.dst 0 b.1 }) := by
  unfold zstdShuffleDecompress
  rw [if_neg (by simp [f.mask_plain]),zstdDecompress_frame h]

theorem zstdShuffleDecompress_shuffled {f : Frame} {b : Block}
    (h : z.decompressDCtx f.1 = some b) (buf : Buffers) :
    zstdShuffleDecompress z f.1 (f.1.length ||| shuffleMask) buf =
      some (b.1.length,⟨moveBlock bloscUnshuffle b.1 buf.dst,writeAt buf.shuffleblock 0 b.1⟩) := by
  unfold zstdShuffleDecompress
  simp only [if_pos f.mask_shuffled,f.size_shuffled,if_neg (Nat.not_lt.mpr f.2),
    List.take_length,h,Option.bind_eq_bind,Option.bind_some,writeAt_front,List.take_left]

theorem zstdShuffleDecompress_encoded (hz : z.Inverts) (hsrc : src.length ≤ maxBlocksize)
    {zsize : Nat} {dst : Bytes} (h : Encoded z true k src compressLevel zsize dst)
    (buf : Buffers) :
    ∃ out, zstdShuffleDecompress z (dst.take (compressedBlockSize zsize)) zsize buf =
      some (src.length,out) ∧ out.dst.take src.length = src := by
  cases h with
  | @plain i f rest output =>
    obtain ⟨b,hb,rfl⟩ := hz k i src compressLevel f hsrc output
    rw [f.size_plain,List.take_left,zstdShuffleDecompress_plain hb]
    exact ⟨_,rfl,by simp [writeAt_front]⟩
  | @shuffled i f rest on output =>
    have hlen := movedBytes_length bloscShuffle_length src
    obtain ⟨b,hb,hmoved⟩ := hz k i _ compressLevel f (by rw [hlen]; exact hsrc) output
    rw [f.size_shuffled,List.take_left,zstdShuffleDecompress_shuffled hb,hmoved,hlen]
    refine ⟨_,rfl,?_⟩
    simp only [moveBlock_eq bloscUnshuffle_length,movedBytes_inverse]
    exact List.take_left

theorem Zstd.decompressor_encoded (hz : z.Inverts) (hsrc : src.length ≤ maxBlocksize)
    {zsize : Nat} {dst : Bytes} (h : Encoded z shuffle k src compressLevel zsize dst) :
    ((z.decompressor shuffle).decompress (dst.take (compressedBlockSize zsize)) zsize).1 =
      src := by
  cases shuffle with
  | true =>
    obtain ⟨out,hout,hback⟩ := zstdShuffleDecompress_encoded hz hsrc h (z.buffers 0)
    have hfront := congrArg front hout
    exact hfront.trans hback
  | false =>
    cases h with
    | @plain i f rest output =>
      obtain ⟨b,hb,rfl⟩ := hz k i src compressLevel f hsrc output
      have hfront := congrArg front (zstdDecompress_frame hb (z.buffers 0))
      rw [f.size_plain,List.take_left]
      exact hfront.trans (by simp [front,writeAt_front])
    | shuffled rest on => cases on

end

/-- Since zstd loses nothing, neither codec does, whatever the heuristic decides. -/
theorem Zstd.Inverts.lossless {z : Zstd} (hz : z.Inverts) (shuffle : Bool) (compressLevel : Int) :
    Lossless (z.decompressor shuffle) (z.compressor shuffle compressLevel) := by
  intro k b _ hb hne
  rcases z.compressor_encoded with herror | ⟨zsize,dst,hencoded,hzsize,hbytes⟩
  · exact absurd herror hne
  · rw [Restores,hzsize,hbytes]
    exact Zstd.decompressor_encoded hz hb hencoded

/-- zstd with its range of levels, storing every block; the predictor is for shuffling. -/
def storedZstd : Zstd where
  minCLevel := -131072
  maxCLevel := 22
  compressCCtx _ _ src _ :=
    if src.length ≤ maxBlocksize then some ⟨storedFrame src,storedFrame_length src⟩ else none
  decompressDCtx src :=
    if h : (unstore src).length ≤ maxBlocksize then some ⟨unstore src,h⟩ else none
  decompress_nothing b h := by
    cases h
    rfl
  predictXgboostImpl _ := 1
  buffers _ := ⟨[],[]⟩

theorem storedZstd_inverts : storedZstd.Inverts := by
  intro k i src compressLevel f hsrc h
  have hf : f = ⟨storedFrame src,storedFrame_length src⟩ :=
    (Option.some.inj ((if_pos hsrc).symm.trans h)).symm
  subst hf
  have hu := unstore_storedFrame hsrc
  exact ⟨⟨unstore (storedFrame src),by rw [hu]; exact hsrc⟩,dif_pos _,hu⟩

theorem storedZstd_compress (k i : Nat) {src : Bytes} (compressLevel : Int)
    (h : src.length ≤ maxBlocksize) :
    storedZstd.compressCCtx k i src compressLevel =
      some ⟨storedFrame src,storedFrame_length src⟩ := if_pos h

theorem storedZstd_sampleWindow (k : Nat) (src : Bytes) (i : Nat) (buf : Buffers) :
    ∃ r, sampleWindow storedZstd k src i buf = some r := by
  have hwindow : shuffleHeuristicBlocksize ≤ maxBlocksize := by decide
  have hone : ∀ (i : Nat) (bs : Bytes),
      storedZstd.compressCCtx k i (bs.take shuffleHeuristicBlocksize)
      shuffleHeuristicCl = some ⟨storedFrame _,storedFrame_length _⟩ := fun i bs =>
    storedZstd_compress k i _ (by rw [List.length_take]; omega)
  simp only [sampleWindow,hone,Option.bind_eq_bind,Option.bind_some]
  exact ⟨_,rfl⟩

theorem storedZstd_sampleWindows (k : Nat) (src : Bytes) (rounds : List Nat) (buf : Buffers) :
    ∃ r, sampleWindows storedZstd k src rounds buf = some r := by
  induction rounds generalizing buf with
  | nil => exact ⟨_,rfl⟩
  | cons i rounds ih =>
    obtain ⟨r,hr⟩ := storedZstd_sampleWindow k src i buf
    obtain ⟨more,hmore⟩ := ih r.2
    simp only [sampleWindows,hr,hmore,Option.bind_eq_bind,Option.bind_some]
    exact ⟨_,rfl⟩

theorem storedZstd_shuffles (k : Nat) {src : Bytes}
    (hlong : 8*shuffleHeuristicBlocksize ≤ src.length) (hmax : src.length ≤ maxBlocksize)
    (buf : Buffers) :
    ∃ zsize buf', zstdShuffleCompress storedZstd k src 3 buf = some (zsize,buf') ∧
      zsize &&& shuffleMask ≠ 0 := by
  obtain ⟨r,hr⟩ := storedZstd_sampleWindows k src [0,1,2,3] buf
  have hheuristic : useShuffleHeuristic storedZstd k src 3 lowHeuristicThreshold buf =
      some (.useHeuristic,r.2) := by
    unfold useShuffleHeuristic
    rw [if_neg (by omega),hr]
    rfl
  have hlow : ¬ (3 : Int) ≥ highCompressLevelThreshold := by decide
  have hmoved : ((moveBlock bloscShuffle src r.2.shuffleblock).take src.length).length ≤
      maxBlocksize := by
    rw [List.length_take]
    omega
  unfold zstdShuffleCompress
  simp only [if_neg hlow,hheuristic,Option.bind_eq_bind,Option.bind_some,
    storedZstd_compress _ _ _ hmoved]
  exact ⟨_,_,rfl,Frame.mask_shuffled ⟨storedFrame _,storedFrame_length _⟩⟩

/-! One block through `ZstdShuffleCompressor` and back. -/

section
variable {z : Zstd} {k : Nat} {src : Bytes} {compressLevel : Int}

theorem Encoded.frame {shuffle : Bool} {zsize : Nat} {dst : Bytes}
    (h : Encoded z shuffle k src compressLevel zsize dst) :
    ∃ i input, ∃ f : Frame, (input = src ∨ input = movedBytes bloscShuffle src) ∧
      z.compressCCtx k i input compressLevel = some f ∧
      compressedBlockSize zsize = f.1.length ∧ dst.take f.1.length = f.1 := by
  cases h with
  | @plain i f rest output => exact ⟨i,_,f,.inl rfl,output,f.size_plain,List.take_left⟩
  | @shuffled i f rest on output => exact ⟨i,_,f,.inr rfl,output,f.size_shuffled,List.take_left⟩

/-- The windows that `use_shuffle_heuristic` compresses lie inside the block. -/
theorem sample_inside (h : 8*shuffleHeuristicBlocksize ≤ src.length) {i : Nat} (hi : i < 4) :
    blockOffset src.length i+shuffleHeuristicBlocksize ≤ src.length := by
  have hquarter : src.length / 4*i ≤ src.length / 4*3 := Nat.mul_le_mul_left _ (by omega)
  simp only [blockOffset,shuffleHeuristicBlocksize] at *
  omega

end

/-- Whatever the predictor says, whichever encoding comes out smaller and whatever the
buffers hold, a compressed block decompresses to itself. -/
theorem shuffled_block_lossless {z : Zstd} (hz : z.Inverts) (k : Nat) (compressLevel : Int)
    {src : Bytes} (hpos : 0 < src.length) (hmax : src.length ≤ maxBlocksize) :
    (∀ buf buf' zsize,
      zstdShuffleCompress z k src compressLevel buf = some (zsize,buf') →
      zsize ≠ compressionError →
      (∃ i input, ∃ f : Frame, (input = src ∨ input = movedBytes bloscShuffle src) ∧
        z.compressCCtx k i input compressLevel = some f ∧
        compressedBlockSize zsize = f.1.length ∧ buf'.dst.take f.1.length = f.1) ∧
      zsize < 2 ^ 32 ∧ compressedBlockSizeFitsBuffer zsize = true ∧
      ∀ scratch, ∃ out,
        zstdShuffleDecompress z (buf'.dst.take (compressedBlockSize zsize)) zsize scratch =
          some (src.length,out) ∧
        src.length ≠ compressionError ∧ out.dst.take src.length = src) ∧
    (¬ src.length < 8*shuffleHeuristicBlocksize →
      ∀ i < 4, blockOffset src.length i+shuffleHeuristicBlocksize ≤ src.length) := by
  constructor
  · intro buf buf' zsize h _
    have hencoded := zstdShuffleCompress_encoded h
    refine ⟨hencoded.frame,hencoded.word,?_,fun scratch => ?_⟩
    · simpa [compressedBlockSizeFitsBuffer] using hencoded.fits
    · obtain ⟨out,hout,hback⟩ := zstdShuffleDecompress_encoded hz hmax hencoded scratch
      exact ⟨out,hout,by simp only [compressionError]; omega,hback⟩
  · intro hlong i hi
    exact sample_inside (by omega) hi

/-- A block of half a megabyte and three bytes, which is shuffled. -/
theorem shuffled_block_lossless_long :
    ∃ zsize buf', zsize &&& shuffleMask ≠ 0 ∧
      zstdShuffleCompress storedZstd 0 (List.replicate 524291 7) 3 ⟨[],[]⟩ =
        some (zsize,buf') ∧
      ∃ out, zstdShuffleDecompress storedZstd
          (buf'.dst.take (compressedBlockSize zsize)) zsize ⟨[],[]⟩ = some (524291,out) ∧
        out.dst.take 524291 = List.replicate 524291 7 := by
  have hlen : (List.replicate 524291 (7 : UInt8)).length = 524291 := List.length_replicate
  have hlong : 8*shuffleHeuristicBlocksize ≤ (List.replicate 524291 (7 : UInt8)).length := by
    rw [hlen]
    decide
  have hmax : (List.replicate 524291 (7 : UInt8)).length ≤ maxBlocksize := by
    rw [hlen]
    decide
  have hpos : 0 < (List.replicate 524291 (7 : UInt8)).length := by
    rw [hlen]
    decide
  obtain ⟨zsize,buf',hcompress,hmask⟩ := storedZstd_shuffles 0 hlong hmax ⟨[],[]⟩
  have hne : zsize ≠ compressionError := by
    intro h
    rw [h,compressionError,Nat.zero_and] at hmask
    exact hmask rfl
  obtain ⟨hblocks,_⟩ := shuffled_block_lossless storedZstd_inverts 0 3 hpos hmax
  obtain ⟨_,_,_,hback⟩ := hblocks _ _ _ hcompress hne
  obtain ⟨out,hout,_,hbytes⟩ := hback ⟨[],[]⟩
  rw [hlen] at hout hbytes
  exact ⟨zsize,buf',hmask,hcompress,out,hout,hbytes⟩

end QData
