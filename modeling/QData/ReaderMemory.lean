import QData.Lockstep
import QData.ReaderLimits
import QData.Lib.Faults
/-! The block reader with its two buffers in memory, for any stream: every access to a
buffer, its own or the caller's, is checked. -/
set_option autoImplicit false

namespace QData
open Words Requests Faults

abbrev ZblockMemory := {m : Bytes // m.length = maxZblocksize}

/-- The fields of `BlockCompressReader` but its hasher. -/
structure ReaderMemory where
  stream : Bytes
  block : BlockMemory
  zblock : ZblockMemory
  currentBlocksize : Nat := 0
  dataOffset : Nat := 0

abbrev ReaderCheck := Checked (Halt ReadError)

def sub64 (a b : Nat) : Nat := (a + 2 ^ 64 - b) % 2 ^ 64

def copyOut (offset : Nat) (bs out : Bytes) : ReaderCheck Bytes :=
  check (offset+bs.length ≤ out.length) (writeAt out offset bs)

namespace ReaderMemory

def cleanupAndThrow {α : Type} (msg : String) : ReaderCheck α := throwing (cleanupHalt msg)

def left (st : ReaderMemory) : Nat := sub32 st.currentBlocksize st.dataOffset

/-- A read from the block buffer; nothing is there at `current_blocksize` and behind. -/
def readBlock (offset size : Nat) (st : ReaderMemory) : ReaderCheck Bytes :=
  check (offset+size ≤ st.currentBlocksize) ((st.block.1.drop offset).take size)

def readFile (count : Nat) (st : ReaderMemory) : ReaderCheck (Nat × ReaderMemory) :=
  if h : count ≤ maxZblocksize then
    .ok ((st.stream.take count).length,
      { st with
        stream := st.stream.drop count
        zblock := ⟨writeAt st.zblock.1 0 (st.stream.take count),by
          rw [length_writeAt (by simp [st.zblock.2]; omega)]
          exact st.zblock.2⟩ })
  else .error .wild

def readSized (st : ReaderMemory) : ReaderCheck (Nat × ReaderMemory) :=
  if st.stream.length < 4 then
    cleanupAndThrow "Unexpected end of file while reading next block size"
  else
    let zsize := toNat (st.stream.take 4)
    let zbytes := compressedBlockSize zsize
    if compressedBlockSizeFitsBuffer zsize then
      readFile zbytes { st with stream := st.stream.drop 4 } >>= fun r =>
        if r.1 ≠ zbytes then cleanupAndThrow "Unexpected end of file while reading next block"
        else .ok (zsize,r.2)
    else cleanupAndThrow "Compressed block size exceeds internal maximum"

section
variable (decompress : Bytes → Nat → Block)

def decompressed (zsize : Nat) (st : ReaderMemory) : ReaderCheck Block :=
  check (compressedBlockSize zsize ≤ maxZblocksize)
      (decompress (st.zblock.1.take (compressedBlockSize zsize)) zsize) >>= fun b =>
    if b.1 = [] then cleanupAndThrow "Decompression error" else .ok b

def decompressBlock (st : ReaderMemory) : ReaderCheck ReaderMemory :=
  st.readSized >>= fun r => r.2.decompressed decompress r.1 >>= fun b =>
    .ok { r.2 with
      block := ⟨writeAt r.2.block.1 0 b.1,by
        rw [length_writeAt (by simpa [r.2.block.2] using b.2)]
        exact r.2.block.2⟩
      currentBlocksize := b.1.length }

/-- The decompressor may use all of the capacity it is told, `MAX_BLOCKSIZE`. -/
def decompressDirect (out : Bytes) (offset : Nat) (st : ReaderMemory) :
    ReaderCheck (Bytes × ReaderMemory) :=
  st.readSized >>= fun r => check (offset+maxBlocksize ≤ out.length) () >>= fun _ =>
    r.2.decompressed decompress r.1 >>= fun b =>
      .ok (writeAt out offset b.1,{ r.2 with currentBlocksize := b.1.length })

def refill (st : ReaderMemory) : ReaderCheck ReaderMemory :=
  if st.currentBlocksize = st.dataOffset then
    st.decompressBlock decompress >>= fun st => .ok { st with dataOffset := 0 }
  else .ok st

/-- The address is answered with all that may be read through it. -/
def currentData (st : ReaderMemory) : ReaderCheck (Bytes × ReaderMemory) :=
  st.refill decompress >>= fun st =>
    st.readBlock st.dataOffset st.left >>= fun bs => .ok (bs,st)

def remainingData (st : ReaderMemory) : ReaderCheck (Nat × ReaderMemory) :=
  st.refill decompress >>= fun st => .ok (st.left,st)

def advanceData (len : Nat) (st : ReaderMemory) : ReaderCheck ReaderMemory :=
  if st.left < len then cleanupAndThrow "Corrupted block data"
  else .ok { st with dataOffset := st.dataOffset+len }

theorem readFile_stream {count n : Nat} {st st' : ReaderMemory}
    (h : st.readFile count = .ok (n,st')) : st'.stream = st.stream.drop count := by
  unfold readFile at h
  split at h
  · cases h
    rfl
  · cases h

theorem readSized_shorter {zsize : Nat} {st st' : ReaderMemory}
    (h : st.readSized = .ok (zsize,st')) : st'.stream.length < st.stream.length := by
  unfold readSized at h
  split at h
  · cases h
  · simp only at h
    split at h
    · obtain ⟨r,hr,h⟩ := bind_eq_ok.mp h
      split at h
      · cases h
      · cases h
        rw [readFile_stream hr]
        simp only [List.length_drop]
        omega
    · cases h

def getFullBlock (out : Bytes) (bytesAccounted : Nat) (st : ReaderMemory) :
    ReaderCheck (Bytes × ReaderMemory) :=
  st.decompressDirect decompress out bytesAccounted >>= fun r =>
    if r.2.currentBlocksize ≠ maxBlocksize then cleanupAndThrow "Corrupted block data"
    else .ok (r.1,{ r.2 with dataOffset := maxBlocksize })

theorem getFullBlock_shorter {out out' : Bytes} {offset : Nat} {st st' : ReaderMemory}
    (h : st.getFullBlock decompress out offset = .ok (out',st')) :
    st'.stream.length < st.stream.length := by
  obtain ⟨r,hr,h⟩ := bind_eq_ok.mp h
  obtain ⟨r₁,hsized,hr⟩ := bind_eq_ok.mp hr
  obtain ⟨_,_,hr⟩ := bind_eq_ok.mp hr
  obtain ⟨b,_,hr⟩ := bind_eq_ok.mp hr
  have hshort := readSized_shorter hsized
  cases hr
  split at h
  · cases h
  · cases h
    exact hshort

/-- `bytes_accounted` is a `uint32_t`, `len` is not. -/
def getDataLoop (out : Bytes) (bytesAccounted : Nat) (st : ReaderMemory) :
    ReaderCheck (Bytes × Nat × ReaderMemory) :=
  if sub64 out.length bytesAccounted ≥ maxBlocksize then
    match h : st.getFullBlock decompress out bytesAccounted with
    | .error e => .error e
    | .ok (out,st) => getDataLoop out ((bytesAccounted+maxBlocksize) % 2 ^ 32) st
  else .ok (out,bytesAccounted,st)
termination_by st.stream.length
decreasing_by exact getFullBlock_shorter decompress h

def getDataTail (out : Bytes) (bytesAccounted rest : Nat) (st : ReaderMemory) :
    ReaderCheck (Bytes × ReaderMemory) :=
  if rest > 0 then
    st.decompressBlock decompress >>= fun st =>
      if st.currentBlocksize < rest then cleanupAndThrow "Corrupted block data"
      else st.readBlock 0 rest >>= fun bs => copyOut bytesAccounted bs out >>= fun out =>
        .ok (out,{ st with dataOffset := rest })
  else .ok (out,st)

def getData (out : Bytes) (st : ReaderMemory) : ReaderCheck (Bytes × ReaderMemory) :=
  if st.left ≥ out.length then
    st.readBlock st.dataOffset out.length >>= fun bs => copyOut 0 bs out >>= fun filled =>
      .ok (filled,{ st with dataOffset := st.dataOffset+out.length })
  else
    let bytesAccounted := st.left
    st.readBlock st.dataOffset bytesAccounted >>= fun bs => copyOut 0 bs out >>= fun out =>
      getDataLoop decompress out bytesAccounted st >>= fun r =>
        getDataTail decompress r.1 r.2.1 (sub64 r.1.length r.2.1) r.2.2

/-- The pointer is answered with the bytes asked for, or it is null. -/
def getPtr (len : Nat) (st : ReaderMemory) : ReaderCheck (Option Bytes × ReaderMemory) :=
  if st.left ≥ len then
    st.readBlock st.dataOffset len >>= fun bs =>
      .ok (some bs,{ st with dataOffset := st.dataOffset+len })
  else .ok (none,st)

def takePod (size : Nat) (st : ReaderMemory) : ReaderCheck (Bytes × ReaderMemory) :=
  if st.left < size then cleanupAndThrow "Corrupted block data"
  else st.readBlock st.dataOffset size >>= fun pod =>
    .ok (pod,{ st with dataOffset := st.dataOffset+size })

def getPod (size : Nat) (st : ReaderMemory) : ReaderCheck (Bytes × ReaderMemory) :=
  st.refill decompress >>= takePod size

def getPodContiguous (size : Nat) (st : ReaderMemory) : ReaderCheck (Bytes × ReaderMemory) :=
  takePod size st

end

/-- What holds between the calls. -/
structure Steady (st : ReaderMemory) : Prop where
  offset : st.dataOffset ≤ st.currentBlocksize
  size : st.currentBlocksize ≤ maxBlocksize

theorem Steady.left_eq {st : ReaderMemory} (h : st.Steady) :
    st.left = st.currentBlocksize - st.dataOffset := by
  have ho := h.offset
  have hs := h.size
  simp only [left,sub32,maxBlocksize] at *
  omega

theorem Steady.within {st : ReaderMemory} (h : st.Steady) {n : Nat} (hn : n ≤ st.left) :
    st.dataOffset+n ≤ st.currentBlocksize := by
  have ho := h.offset
  rw [h.left_eq] at hn
  omega

theorem Steady.advance {st : ReaderMemory} (h : st.Steady) {n : Nat} (hn : n ≤ st.left) :
    Steady { st with dataOffset := st.dataOffset+n } := ⟨h.within hn,h.size⟩

theorem readBlock_safe {offset size : Nat} {st : ReaderMemory}
    (h : offset+size ≤ st.currentBlocksize) :
    Safe (fun bs => bs.length ≤ size) (st.readBlock offset size) :=
  .check h (by simp only [List.length_take]; omega)

theorem copyOut_safe {offset : Nat} {bs out : Bytes} (h : offset+bs.length ≤ out.length) :
    Safe (fun out' => out'.length = out.length) (copyOut offset bs out) :=
  .check h (length_writeAt h)

theorem readFile_safe {count : Nat} {st : ReaderMemory} (h : count ≤ maxZblocksize) :
    Safe (fun _ => True) (st.readFile count) := by
  rw [readFile,dif_pos h]
  trivial

theorem readSized_safe (st : ReaderMemory) :
    Safe (fun r => compressedBlockSize r.1 ≤ maxZblocksize) st.readSized := by
  unfold readSized
  split
  · exact .throwing _
  · simp only
    split
    · next hfits =>
      have hsize : compressedBlockSize (toNat (st.stream.take 4)) ≤ maxZblocksize := by
        simpa [compressedBlockSizeFitsBuffer] using hfits
      refine (readFile_safe hsize).bind fun r _ => ?_
      split
      · exact .throwing _
      · exact hsize
    · exact .throwing _

section
variable {decompress : Bytes → Nat → Block}

theorem decompressed_safe {zsize : Nat} {st : ReaderMemory}
    (h : compressedBlockSize zsize ≤ maxZblocksize) :
    Safe (fun _ => True) (st.decompressed decompress zsize) := by
  refine (Safe.check (Q := fun _ => True) h trivial).bind fun b _ => ?_
  split
  · exact .throwing _
  · trivial

theorem decompressBlock_safe (st : ReaderMemory) :
    Safe (fun st' => st'.currentBlocksize ≤ maxBlocksize) (st.decompressBlock decompress) :=
  (readSized_safe st).bind fun _ hz => (decompressed_safe hz).bind fun b _ => b.2

theorem refill_safe {st : ReaderMemory} (h : st.Steady) :
    Safe Steady (st.refill decompress) := by
  unfold refill
  split
  · exact (decompressBlock_safe st).bind fun st' hs => ⟨Nat.zero_le _,hs⟩
  · exact h

theorem currentData_safe {st : ReaderMemory} (h : st.Steady) :
    Safe (fun r => r.2.Steady) (st.currentData decompress) :=
  (refill_safe h).bind fun _ h' =>
    (readBlock_safe (h'.within (Nat.le_refl _))).bind fun _ _ => h'

theorem remainingData_safe {st : ReaderMemory} (h : st.Steady) :
    Safe (fun r => r.2.Steady) (st.remainingData decompress) :=
  (refill_safe h).bind fun _ h' => h'

theorem advanceData_safe {st : ReaderMemory} (h : st.Steady) (len : Nat) :
    Safe Steady (st.advanceData len) := by
  unfold advanceData
  split
  · exact .throwing _
  · exact h.advance (by omega)

theorem getPtr_safe {st : ReaderMemory} (h : st.Steady) (len : Nat) :
    Safe (fun r => r.2.Steady) (st.getPtr len) := by
  unfold getPtr
  split
  · next hlen => exact (readBlock_safe (h.within hlen)).bind fun _ _ => h.advance hlen
  · exact h

theorem takePod_safe {st : ReaderMemory} (h : st.Steady) (size : Nat) :
    Safe (fun r => r.2.Steady) (st.takePod size) := by
  unfold takePod
  split
  · exact .throwing _
  · next hlen =>
    have hsize : size ≤ st.left := by omega
    exact (readBlock_safe (h.within hsize)).bind fun _ _ => h.advance hsize

theorem getPod_safe {st : ReaderMemory} (h : st.Steady) (size : Nat) :
    Safe (fun r => r.2.Steady) (st.getPod decompress size) :=
  (refill_safe h).bind fun _ h' => takePod_safe h' size

theorem sub64_le {a b : Nat} (h : b ≤ a) : b+sub64 a b ≤ a := by
  unfold sub64
  omega

theorem decompressDirect_safe {out : Bytes} {offset : Nat} {st : ReaderMemory}
    (h : offset+maxBlocksize ≤ out.length) :
    Safe (fun r => r.1.length = out.length ∧ r.2.currentBlocksize ≤ maxBlocksize)
      (st.decompressDirect decompress out offset) := by
  refine (readSized_safe st).bind fun r hz => ?_
  refine (Safe.check (Q := fun _ => True) h trivial).bind fun _ _ => ?_
  refine (decompressed_safe hz).bind fun b _ => ?_
  have hb := b.2
  exact ⟨length_writeAt (by omega),hb⟩

theorem getFullBlock_safe {out : Bytes} {acc : Nat} {st : ReaderMemory}
    (h : acc+maxBlocksize ≤ out.length) :
    Safe (fun r => r.1.length = out.length ∧ r.2.Steady)
      (st.getFullBlock decompress out acc) := by
  refine (decompressDirect_safe h).bind fun r hr => ?_
  split
  · exact .throwing _
  · next hfull =>
    have hsize : r.2.currentBlocksize = maxBlocksize := by simpa using hfull
    exact ⟨hr.1,Nat.le_of_eq hsize.symm,hr.2⟩

theorem getDataLoop_done {out : Bytes} {acc : Nat} {st : ReaderMemory}
    (h : ¬ sub64 out.length acc ≥ maxBlocksize) :
    st.getDataLoop decompress out acc = .ok (out,acc,st) := by
  rw [getDataLoop,if_neg h]

theorem getDataLoop_long {out : Bytes} {acc : Nat} {st : ReaderMemory}
    (h : sub64 out.length acc ≥ maxBlocksize) :
    st.getDataLoop decompress out acc = st.getFullBlock decompress out acc >>= fun r =>
      r.2.getDataLoop decompress r.1 ((acc+maxBlocksize) % 2 ^ 32) := by
  rw [getDataLoop,if_pos h]
  split
  · next he => rw [he]; rfl
  · next he => rw [he]; rfl

/-- The counter may wrap, but it never passes the length. -/
theorem getDataLoop_safe {out : Bytes} {acc : Nat} {st : ReaderMemory} (hacc : acc ≤ out.length)
    (h : st.Steady) :
    Safe (fun r => r.1.length = out.length ∧ r.2.1 ≤ out.length ∧ r.2.2.Steady)
      (st.getDataLoop decompress out acc) := by
  have hroom : sub64 out.length acc ≥ maxBlocksize → acc+maxBlocksize ≤ out.length := by
    have hsub := sub64_le hacc
    omega
  induction out, acc, st using getDataLoop.induct decompress with
  | case1 out acc st hlong e he =>
    have hsafe : Safe _ (st.getFullBlock decompress out acc) := getFullBlock_safe (hroom hlong)
    rw [getDataLoop_long hlong,he]
    rw [he] at hsafe
    exact hsafe.of_error
  | case2 out acc st hlong out' st' he ih =>
    have hsafe : Safe _ (st.getFullBlock decompress out acc) := getFullBlock_safe (hroom hlong)
    obtain ⟨hlen,hst⟩ := hsafe.of_ok he
    have hacc' : (acc+maxBlocksize) % 2 ^ 32 ≤ out'.length := by
      have hle := Nat.mod_le (acc+maxBlocksize) (2 ^ 32)
      have hr := hroom hlong
      simp only at hlen
      omega
    have hsub := sub64_le hacc'
    rw [getDataLoop_long hlong,he]
    refine (ih hacc' hst (by omega)).mono fun r hr => ?_
    rw [← hlen]
    exact hr
  | case3 out acc st hshort =>
    rw [getDataLoop_done hshort]
    exact ⟨rfl,hacc,h⟩

theorem getDataTail_safe {out : Bytes} {acc rest : Nat} {st : ReaderMemory}
    (hrest : acc+rest ≤ out.length) (h : st.Steady) :
    Safe (fun r => r.2.Steady) (st.getDataTail decompress out acc rest) := by
  unfold getDataTail
  split
  · refine (decompressBlock_safe st).bind fun st' hs => ?_
    split
    · exact .throwing _
    · next hlong =>
      have hwithin : 0+rest ≤ st'.currentBlocksize := by omega
      refine (readBlock_safe hwithin).bind fun bs hbs => ?_
      refine (copyOut_safe (by omega)).bind fun out' _ => ⟨?_,hs⟩
      simp only
      omega
  · exact h

theorem getData_safe {st : ReaderMemory} (h : st.Steady) (out : Bytes) :
    Safe (fun r => r.2.Steady) (st.getData decompress out) := by
  unfold getData
  split
  · next hlen =>
    refine (readBlock_safe (h.within hlen)).bind fun bs hbs => ?_
    exact (copyOut_safe (by omega)).bind fun _ _ => h.advance hlen
  · next hlen =>
    simp only
    refine (readBlock_safe (h.within (Nat.le_refl _))).bind fun bs hbs => ?_
    refine (copyOut_safe (by omega)).bind fun out' hout => ?_
    refine (getDataLoop_safe (by omega) h).bind fun r hr => ?_
    exact getDataTail_safe (sub64_le (by omega)) hr.2.2

end

end ReaderMemory

/-! The calls of the object codec get from this reader what they get from the one above it. -/

namespace ReaderMemory

def reader (st : ReaderMemory) : BlockReader Bytes :=
  ⟨st.stream,st.block.1,st.currentBlocksize,st.dataOffset⟩

/-- A checked call answers as a cursor does. -/
def Mirrors {α β : Type} (R : α → β → Prop) :
    ReaderCheck (α × ReaderMemory) → Except (Halt ReadError) (β × Cursor Bytes) → Prop
  | .ok x, .ok y => R x.1 y.1 ∧ Shows x.2.reader y.2
  | .error (.thrown e), .error e' => e = e'
  | _, _ => False

theorem readFile_ok {count : Nat} (st : ReaderMemory) (h : count ≤ maxZblocksize) :
    ∃ zblock : ZblockMemory,
      st.readFile count =
        .ok ((st.stream.take count).length,{ st with stream := st.stream.drop count, zblock }) ∧
      zblock.1.take (st.stream.take count).length = st.stream.take count := by
  refine ⟨_,dif_pos h,?_⟩
  exact writeAt_inside (Nat.zero_le st.zblock.1.length)

theorem readSized_zblock {st : ReaderMemory} {zsize : Nat} {zbytes rest : Bytes}
    (h : readZblock st.stream = .zblock zsize zbytes rest) :
    ∃ zblock : ZblockMemory, st.readSized = .ok (zsize,{ st with stream := rest, zblock }) ∧
      zblock.1.take (compressedBlockSize zsize) = zbytes ∧
      compressedBlockSize zsize ≤ maxZblocksize := by
  unfold readZblock at h
  split at h
  · cases h
  next hword =>
  simp only at h
  split at h
  · next hfits =>
    split at h
    · cases h
    next hlong =>
    simp only [Zblock.zblock.injEq] at h
    obtain ⟨rfl,rfl,rfl⟩ := h
    have hsize : compressedBlockSize (toNat (st.stream.take 4)) ≤ maxZblocksize := by
      simpa [compressedBlockSizeFitsBuffer] using hfits
    obtain ⟨zblock,hread,hfront⟩ := readFile_ok { st with stream := st.stream.drop 4 } hsize
    have hcount : ((st.stream.drop 4).take
        (compressedBlockSize (toNat (st.stream.take 4)))).length =
        compressedBlockSize (toNat (st.stream.take 4)) := by
      rw [List.length_take]
      omega
    simp only [hcount] at hread hfront
    refine ⟨zblock,?_,hfront,hsize⟩
    unfold readSized
    rw [if_neg hword]
    simp only [if_pos hfits,hread]
    exact if_neg (not_not.mpr rfl)
  · cases h

theorem fetch_ok {dp : Decompressor} {st : ReaderMemory} {b : Block} {rest : Bytes}
    (h : decompressNext dp st.stream = .ok (b,rest)) :
    ∃ zsize, ∃ zblock : ZblockMemory,
      st.readSized = .ok (zsize,{ st with stream := rest, zblock }) ∧
      decompressed dp.decompress zsize { st with stream := rest, zblock } = .ok b := by
  obtain ⟨zsize,zbytes,hz,hne,hb⟩ := decompressNext_ok h
  obtain ⟨zblock,hread,hfront,hsize⟩ := readSized_zblock hz
  refine ⟨zsize,zblock,hread,?_⟩
  unfold decompressed
  rw [check,if_pos hsize,hfront,hb]
  exact if_neg hne

theorem readSized_error {dp : Decompressor} {st : ReaderMemory} {e : Halt ReadError}
    (h : decompressNext dp st.stream = .error e)
    (hz : ∀ zsize zbytes rest, readZblock st.stream ≠ .zblock zsize zbytes rest) :
    st.readSized = .error (.thrown e) := by
  unfold decompressNext at h
  unfold readZblock at h hz
  unfold readSized
  by_cases hword : st.stream.length < 4
  · simp only [if_pos hword] at h ⊢
    cases h
    rfl
  simp only [if_neg hword] at h hz ⊢
  by_cases hfits : compressedBlockSizeFitsBuffer (toNat (st.stream.take 4)) = true
  · simp only [if_pos hfits] at h hz ⊢
    have hsize : compressedBlockSize (toNat (st.stream.take 4)) ≤ maxZblocksize := by
      simpa [compressedBlockSizeFitsBuffer] using hfits
    by_cases hshort :
        (st.stream.drop 4).length < compressedBlockSize (toNat (st.stream.take 4))
    · simp only [if_pos hshort] at h
      cases h
      obtain ⟨zblock,hread,_⟩ := readFile_ok { st with stream := st.stream.drop 4 } hsize
      rw [hread]
      refine if_pos ?_
      simp only [List.length_take]
      omega
    · simp only [if_neg hshort] at hz
      exact absurd rfl (hz _ _ _)
  · simp only [if_neg hfits] at h ⊢
    cases h
    rfl

theorem fetch_error {dp : Decompressor} {st : ReaderMemory} {e : Halt ReadError}
    (h : decompressNext dp st.stream = .error e) :
    st.readSized = .error (.thrown e) ∨
      ∃ r, st.readSized = .ok r ∧
        r.2.decompressed dp.decompress r.1 = .error (.thrown e) := by
  by_cases hz : ∃ zsize zbytes rest, readZblock st.stream = .zblock zsize zbytes rest
  · obtain ⟨zsize,zbytes,rest,hz⟩ := hz
    obtain ⟨zblock,hread,hfront,hsize⟩ := readSized_zblock hz
    unfold decompressNext at h
    simp only [hz] at h
    split at h
    · next hempty =>
      cases h
      refine .inr ⟨_,hread,?_⟩
      unfold decompressed
      rw [check,if_pos hsize]
      simp only [hfront]
      exact if_pos hempty
    · cases h
  · simp only [not_exists] at hz
    exact .inl (readSized_error h hz)

theorem decompressBlock_ok {dp : Decompressor} {st : ReaderMemory} {b : Block} {rest : Bytes}
    (h : decompressNext dp st.stream = .ok (b,rest)) :
    ∃ block zblock, st.decompressBlock dp.decompress =
        .ok ⟨rest,block,zblock,b.1.length,st.dataOffset⟩ ∧ block.1.take b.1.length = b.1 := by
  obtain ⟨zsize,zblock,hread,hdec⟩ := fetch_ok h
  have hroom : 0+b.1.length ≤ st.block.1.length := by
    rw [Nat.zero_add,st.block.2]
    exact b.2
  refine ⟨⟨writeAt st.block.1 0 b.1,by rw [length_writeAt hroom]; exact st.block.2⟩,zblock,?_,
    writeAt_inside (Nat.zero_le st.block.1.length)⟩
  unfold decompressBlock
  rw [hread,ok_bind,hdec,ok_bind]

theorem decompressBlock_error {dp : Decompressor} {st : ReaderMemory} {e : Halt ReadError}
    (h : decompressNext dp st.stream = .error e) :
    st.decompressBlock dp.decompress = .error (.thrown e) := by
  unfold decompressBlock
  rcases fetch_error h with hread | ⟨r,hread,hdec⟩
  · rw [hread,error_bind]
  · rw [hread,ok_bind,hdec,error_bind]

theorem getFullBlock_ok {dp : Decompressor} {st : ReaderMemory} {b : Block} {rest : Bytes}
    (h : decompressNext dp st.stream = .ok (b,rest)) {out : Bytes} {acc : Nat}
    (hroom : acc+maxBlocksize ≤ out.length) (hb : b.1.length = maxBlocksize) :
    ∃ zblock, st.getFullBlock dp.decompress out acc =
      .ok (writeAt out acc b.1,⟨rest,st.block,zblock,maxBlocksize,maxBlocksize⟩) := by
  obtain ⟨zsize,zblock,hread,hdec⟩ := fetch_ok h
  refine ⟨zblock,?_⟩
  unfold getFullBlock decompressDirect
  rw [hread,ok_bind,check,if_pos hroom,ok_bind,hdec,ok_bind,ok_bind,if_neg (not_not.mpr hb)]
  simp only [hb]

theorem getFullBlock_corrupted {dp : Decompressor} {st : ReaderMemory} {b : Block}
    {rest : Bytes} (h : decompressNext dp st.stream = .ok (b,rest)) {out : Bytes} {acc : Nat}
    (hroom : acc+maxBlocksize ≤ out.length) (hb : b.1.length ≠ maxBlocksize) :
    st.getFullBlock dp.decompress out acc = .error (.thrown corrupted) := by
  obtain ⟨zsize,zblock,hread,hdec⟩ := fetch_ok h
  unfold getFullBlock decompressDirect
  rw [hread,ok_bind,check,if_pos hroom,ok_bind,hdec,ok_bind,ok_bind,if_pos hb]
  rfl

theorem getFullBlock_error {dp : Decompressor} {st : ReaderMemory} {e : Halt ReadError}
    (h : decompressNext dp st.stream = .error e) {out : Bytes} {acc : Nat}
    (hroom : acc+maxBlocksize ≤ out.length) :
    st.getFullBlock dp.decompress out acc = .error (.thrown e) := by
  unfold getFullBlock decompressDirect
  rcases fetch_error h with hread | ⟨r,hread,hdec⟩
  · rw [hread,error_bind,error_bind]
  · rw [hread,ok_bind,check,if_pos hroom,ok_bind,hdec,error_bind,error_bind]

theorem getFullBlock_eq_ok {dp : Decompressor} {st st' : ReaderMemory} {out out' : Bytes}
    {acc : Nat} (hroom : acc+maxBlocksize ≤ out.length)
    (h : st.getFullBlock dp.decompress out acc = .ok (out',st')) :
    ∃ b rest zblock, decompressNext dp st.stream = .ok (b,rest) ∧ b.1.length = maxBlocksize ∧
      out' = writeAt out acc b.1 ∧ st' = ⟨rest,st.block,zblock,maxBlocksize,maxBlocksize⟩ := by
  cases hf : decompressNext dp st.stream with
  | error e =>
    rw [getFullBlock_error hf hroom] at h
    cases h
  | ok x =>
    by_cases hb : x.1.1.length = maxBlocksize
    · obtain ⟨zblock,hfull⟩ := getFullBlock_ok hf hroom hb
      rw [hfull] at h
      cases h
      exact ⟨x.1,x.2,zblock,rfl,hb,rfl,rfl⟩
    · rw [getFullBlock_corrupted hf hroom hb] at h
      cases h

theorem getFullBlock_eq_error {dp : Decompressor} {st : ReaderMemory} {out : Bytes} {acc : Nat}
    {e : Fault (Halt ReadError)} (hroom : acc+maxBlocksize ≤ out.length)
    (h : st.getFullBlock dp.decompress out acc = .error e) :
    (∃ e', e = .thrown e' ∧ decompressNext dp st.stream = .error e') ∨
      (e = .thrown corrupted ∧ ∃ b rest, decompressNext dp st.stream = .ok (b,rest) ∧
        b.1.length ≠ maxBlocksize) := by
  cases hf : decompressNext dp st.stream with
  | error e' =>
    rw [getFullBlock_error hf hroom] at h
    cases h
    exact .inl ⟨e',rfl,rfl⟩
  | ok x =>
    by_cases hb : x.1.1.length = maxBlocksize
    · obtain ⟨zblock,hfull⟩ := getFullBlock_ok hf hroom hb
      rw [hfull] at h
      cases h
    · rw [getFullBlock_corrupted hf hroom hb] at h
      cases h
      exact .inr ⟨rfl,x.1,x.2,rfl,hb⟩

theorem takePod_mirrors {st : ReaderMemory} {c : Cursor Bytes} (h : Shows st.reader c)
    (size : Nat) : Mirrors Eq (st.takePod size) (Cursor.take size c) := by
  have hleft : st.left = c.pending.length := by
    unfold left
    exact h.remaining
  have hlen : c.pending.length = st.currentBlocksize - st.dataOffset := h.length
  unfold takePod Cursor.take
  rw [hleft]
  by_cases hs : c.pending.length < size
  · rw [if_pos hs,if_pos hs]
    rfl
  · have hwithin : st.dataOffset+size ≤ st.currentBlocksize := by
      have ho : st.dataOffset ≤ st.currentBlocksize := h.offset
      omega
    have hsize : size ≤ c.pending.length := by omega
    rw [if_neg hs,if_neg hs,readBlock,check,if_pos hwithin,ok_bind]
    exact h.advance hsize

theorem fresh_shows {block : BlockMemory} {b : Block} (h : block.1.take b.1.length = b.1)
    (rest : Bytes) (zblock : ZblockMemory) :
    Shows (reader ⟨rest,block,zblock,b.1.length,0⟩) ⟨b.1,rest⟩ :=
  ⟨rfl,Nat.zero_le _,b.2,by simpa [reader] using h,by simp [reader]⟩

theorem getPod_mirrors {dp : Decompressor} {st : ReaderMemory} {c : Cursor Bytes}
    (h : Shows st.reader c) (size : Nat) :
    Mirrors Eq (st.getPod dp.decompress size) (Cursor.getPod (streamSource dp) size c) := by
  have hlen : c.pending.length = st.currentBlocksize - st.dataOffset := h.length
  have hoffset : st.dataOffset ≤ st.currentBlocksize := h.offset
  have hsource : (streamSource dp).fetch c.source = decompressNext dp st.stream := by
    rw [← h.source]
    rfl
  unfold getPod refill Cursor.getPod
  by_cases hp : c.pending = []
  · have heq : st.currentBlocksize = st.dataOffset := by
      rw [hp,List.length_nil] at hlen
      omega
    rw [if_pos heq,if_pos hp,hsource]
    cases hf : decompressNext dp st.stream with
    | error e =>
      rw [decompressBlock_error hf,error_bind,error_bind]
      rfl
    | ok x =>
      obtain ⟨block,zblock,hdec,hfront⟩ := decompressBlock_ok hf
      rw [hdec,ok_bind,ok_bind]
      exact takePod_mirrors (fresh_shows hfront _ zblock) size
  · have hne : st.currentBlocksize ≠ st.dataOffset := by
      intro heq
      exact hp (List.eq_nil_of_length_eq_zero (by omega))
    rw [if_neg hne,if_neg hp,ok_bind]
    exact takePod_mirrors h size

theorem prefix_writeAt {o out : Bytes} (h : o <+: out) {acc : Nat} (hacc : acc ≤ o.length)
    (bs : Bytes) : writeAt o acc bs <+: writeAt out acc bs := by
  obtain ⟨t,rfl⟩ := h
  refine ⟨t.drop (acc+bs.length - o.length),?_⟩
  simp only [writeAt]
  rw [List.take_append_of_le_length hacc,List.drop_append,List.append_assoc _ _ (List.drop _ t)]

theorem sub64_eq {a b : Nat} (h : b ≤ a) (ha : a < 2 ^ 64) : sub64 a b = a - b := by
  unfold sub64
  omega

/-- The two loops run alike, the one into a buffer of the whole length. -/
def LoopMirrors (len acc₀ : Nat) (st : ReaderMemory) :
    ReaderCheck (Bytes × Nat × ReaderMemory) → Except (Halt ReadError) (Bytes × Nat × Bytes) →
    Prop
  | .ok x, .ok y => y.1 <+: x.1 ∧ x.1.length = len ∧ x.2.1 = y.2.1 ∧ y.2.1 ≤ y.1.length ∧
      x.2.2.stream = y.2.2 ∧
      ((x.2.2 = st ∧ y.2.1 = acc₀) ∨ Shows x.2.2.reader ⟨[],y.2.2⟩)
  | .error (.thrown e), .error e' => e = e'
  | _, _ => False

theorem LoopMirrors.later {len acc₀ acc₁ : Nat} {st st₁ : ReaderMemory}
    (h₁ : Shows st₁.reader ⟨[],st₁.stream⟩) {x : ReaderCheck (Bytes × Nat × ReaderMemory)}
    {y : Except (Halt ReadError) (Bytes × Nat × Bytes)} (h : LoopMirrors len acc₁ st₁ x y) :
    LoopMirrors len acc₀ st x y := by
  cases x with
  | error e =>
    cases e with
    | wild => cases y <;> exact h
    | thrown e => cases y <;> exact h
  | ok x =>
    cases y with
    | error e => exact h
    | ok y =>
      obtain ⟨hfront,hlen,hacc,hle,hstream,hst⟩ := h
      refine ⟨hfront,hlen,hacc,hle,hstream,.inr ?_⟩
      rcases hst with ⟨hsame,_⟩ | hst
      · rw [← hstream,hsame]
        exact h₁
      · exact hst

theorem used_up_shows (rest : Bytes) (block : BlockMemory) (zblock : ZblockMemory) :
    Shows (reader ⟨rest,block,zblock,maxBlocksize,maxBlocksize⟩) ⟨[],rest⟩ :=
  Shows.used_up rest block.1 rfl

theorem getDataLoop_mirrors {dp : Decompressor} {o out : Bytes} {acc : Nat} {st : ReaderMemory}
    (hlen : out.length < 2 ^ 64) (ho : o <+: out) (hacc : acc ≤ o.length) :
    LoopMirrors out.length acc st (st.getDataLoop dp.decompress out acc)
      (Cursor.getBlocks (streamSource dp) out.length o acc st.stream) := by
  have hle := ho.length_le
  have hsub := sub64_eq (hacc.trans hle) hlen
  induction out, acc, st using getDataLoop.induct dp.decompress generalizing o with
  | case1 out acc st hlong e he =>
    have hlong' : out.length - acc ≥ maxBlocksize := by rwa [hsub] at hlong
    rw [getDataLoop_long hlong,he]
    rcases getFullBlock_eq_error (by omega) he with ⟨e',rfl,hf⟩ | ⟨rfl,b,rest,hf,hb⟩
    · rw [Cursor.getBlocks_error hlong' hf]
      rfl
    · rw [Cursor.getBlocks_block hlong' hf,if_pos hb]
      rfl
  | case2 out acc st hlong out' st' he ih =>
    have hlong' : out.length - acc ≥ maxBlocksize := by rwa [hsub] at hlong
    have hroom : acc+maxBlocksize ≤ out.length := by omega
    rw [getDataLoop_long hlong,he]
    obtain ⟨b,rest,zblock,hf,hb,rfl,rfl⟩ := getFullBlock_eq_ok hroom he
    have hnext : (acc+maxBlocksize) % 2 ^ 32 ≤ (writeAt o acc b.1).length := by
      have hmod := Nat.mod_le (acc+maxBlocksize) (2 ^ 32)
      simp only [writeAt,List.length_append,List.length_take,hb]
      omega
    have hout : (writeAt out acc b.1).length = out.length :=
      length_writeAt (by rw [hb]; exact hroom)
    have hfront := prefix_writeAt ho hacc b.1
    have hlen' : (writeAt out acc b.1).length < 2 ^ 64 := by rw [hout]; exact hlen
    have hle' := hfront.length_le
    have hrest := ih hlen' hfront hnext hle' (sub64_eq (hnext.trans hle') hlen')
    rw [hout] at hrest
    rw [Cursor.getBlocks_block hlong' hf,if_neg (not_not.mpr hb),ok_bind]
    exact hrest.later (used_up_shows _ _ _)
  | case3 out acc st hshort =>
    rw [getDataLoop_done hshort]
    rw [hsub] at hshort
    rw [Cursor.getBlocks_done hshort]
    exact ⟨ho,rfl,rfl,hacc,rfl,.inl ⟨rfl,rfl⟩⟩

theorem getDataTail_mirrors {dp : Decompressor} {o out : Bytes} {acc : Nat}
    {st : ReaderMemory} (ho : o <+: out) (hacc : acc ≤ o.length)
    (hend : out.length - acc = 0 → Shows st.reader ⟨[],st.stream⟩) :
    Mirrors (fun out' o => o <+: out' ∧ out'.length = out.length)
      (st.getDataTail dp.decompress out acc (out.length - acc))
      (Cursor.getTail (streamSource dp) out.length o acc st.stream) := by
  have hle := ho.length_le
  unfold getDataTail Cursor.getTail
  by_cases hrest : out.length - acc > 0
  · have hsource : (streamSource dp).fetch st.stream = decompressNext dp st.stream := rfl
    rw [if_pos hrest,if_pos hrest,hsource]
    cases hf : decompressNext dp st.stream with
    | error e =>
      rw [decompressBlock_error hf,error_bind]
      rfl
    | ok x =>
      obtain ⟨block,zblock,hdec,hfront⟩ := decompressBlock_ok hf
      rw [hdec,ok_bind]
      by_cases hshort : x.1.1.length < out.length - acc
      · simp only [if_pos hshort]
        rfl
      · have hwithin : 0+(out.length - acc) ≤ x.1.1.length := by omega
        have hfresh := fresh_shows hfront x.2 zblock
        obtain ⟨htake,hshows⟩ := hfresh.advance (n := out.length - acc) (by simp only; omega)
        have htake' : (block.1.drop 0).take (out.length - acc) = x.1.1.take (out.length - acc) :=
          htake
        have hroom : acc+(x.1.1.take (out.length - acc)).length ≤ out.length := by
          rw [List.length_take]
          omega
        simp only [if_neg hshort]
        rw [readBlock,check,if_pos hwithin,ok_bind,htake',copyOut,check,if_pos hroom,ok_bind]
        simp only [reader,Nat.zero_add] at hshows
        exact ⟨⟨prefix_writeAt ho hacc _,length_writeAt hroom⟩,hshows⟩
  · rw [if_neg hrest,if_neg hrest]
    exact ⟨⟨ho,rfl⟩,hend (by omega)⟩

theorem prefix_writeAt_zero (bs out : Bytes) : bs <+: writeAt out 0 bs :=
  ⟨out.drop bs.length,by simp [writeAt]⟩

theorem LoopMirrors.tail {dp : Decompressor} {len acc : Nat} {st : ReaderMemory} {o source : Bytes}
    {x : ReaderCheck (Bytes × Nat × ReaderMemory)}
    (h : LoopMirrors len acc st x (Cursor.getBlocks (streamSource dp) len o acc source))
    (hlen : len < 2 ^ 64) (hmore : acc < len) :
    Mirrors (fun out o => o <+: out ∧ out.length = len)
      (x >>= fun r => getDataTail dp.decompress r.1 r.2.1 (sub64 r.1.length r.2.1) r.2.2)
      (Cursor.getRest (streamSource dp) len o acc source) := by
  unfold Cursor.getRest
  generalize Cursor.getBlocks (streamSource dp) len o acc source = y at *
  cases x with
  | error e =>
    cases y with
    | error e' =>
      cases e with
      | wild => cases h
      | thrown e => exact h
    | ok y => cases e <;> cases h
  | ok x =>
    cases y with
    | error e => cases h
    | ok y =>
      obtain ⟨hfront,hout,hacc,hle,hstream,hst⟩ := h
      have hlong := hfront.length_le
      rw [ok_bind,hacc,sub64_eq (by omega) (by omega),← hout]
      simp only
      rw [← hstream]
      refine getDataTail_mirrors hfront hle fun hend => ?_
      rcases hst with ⟨_,hsame⟩ | hst
      · omega
      · rw [hstream]
        exact hst

theorem getData_mirrors {dp : Decompressor} {st : ReaderMemory} {c : Cursor Bytes}
    (h : Shows st.reader c) {out : Bytes} (hlen : out.length < 2 ^ 64) :
    Mirrors (fun out' o => o <+: out' ∧ out'.length = out.length) (st.getData dp.decompress out)
      (Cursor.getData (streamSource dp) out.length c) := by
  have hleft : st.left = c.pending.length := by
    unfold left
    exact h.remaining
  have hoffset : st.dataOffset ≤ st.currentBlocksize := h.offset
  have hpending : c.pending.length = st.currentBlocksize - st.dataOffset := h.length
  unfold getData Cursor.getData
  rw [hleft]
  by_cases henough : out.length ≤ c.pending.length
  · have hwithin : st.dataOffset+out.length ≤ st.currentBlocksize := by omega
    obtain ⟨htake,hshows⟩ := h.advance henough
    have htake' : (st.block.1.drop st.dataOffset).take out.length = c.pending.take out.length :=
      htake
    have hroom : 0+(c.pending.take out.length).length ≤ out.length := by
      rw [List.length_take]
      omega
    rw [if_pos henough,if_pos henough,readBlock,check,if_pos hwithin,ok_bind,htake',copyOut,
      check,if_pos hroom,ok_bind]
    exact ⟨⟨prefix_writeAt_zero _ _,length_writeAt hroom⟩,hshows⟩
  · have hwithin : st.dataOffset+c.pending.length ≤ st.currentBlocksize := by omega
    have htake : (st.block.1.drop st.dataOffset).take c.pending.length = c.pending := by
      have hall := (h.advance (Nat.le_refl _)).1
      rw [List.take_length] at hall
      exact hall
    have hroom : 0+c.pending.length ≤ out.length := by omega
    have hfilled : (writeAt out 0 c.pending).length = out.length := length_writeAt hroom
    have hloop : LoopMirrors _ _ _ (st.getDataLoop dp.decompress _ _)
        (Cursor.getBlocks (streamSource dp) _ _ _ _) :=
      getDataLoop_mirrors (by rw [hfilled]; exact hlen) (prefix_writeAt_zero c.pending out)
        (Nat.le_refl _)
    rw [hfilled] at hloop
    have hsource : st.stream = c.source := h.source
    simp only [if_neg henough]
    rw [readBlock,check,if_pos hwithin,ok_bind,htake,copyOut,check,if_pos hroom,ok_bind,
      ← hsource]
    exact hloop.tail hlen (by omega)

end ReaderMemory

inductive ReaderCall where
  | getPod : Nat → ReaderCall
  | getPodContiguous : Nat → ReaderCall
  | getData : Bytes → ReaderCall
  | getPtr : Nat → ReaderCall
  | advanceData : Nat → ReaderCall
  | currentData : ReaderCall
  | remainingData : ReaderCall
  deriving DecidableEq, Repr

inductive ReaderAnswer where
  | bytes : Bytes → ReaderAnswer
  | nullptr : ReaderAnswer
  | size : Nat → ReaderAnswer
  | done : ReaderAnswer
  deriving DecidableEq, Repr

def readerCall (decompress : Bytes → Nat → Block) :
    ReaderCall → ReaderMemory → ReaderCheck (ReaderAnswer × ReaderMemory)
  | .getPod size, st => st.getPod decompress size >>= fun r => .ok (.bytes r.1,r.2)
  | .getPodContiguous size, st => st.getPodContiguous size >>= fun r => .ok (.bytes r.1,r.2)
  | .getData out, st => st.getData decompress out >>= fun r => .ok (.bytes r.1,r.2)
  | .getPtr len, st => st.getPtr len >>= fun r => .ok ((r.1.map .bytes).getD .nullptr,r.2)
  | .advanceData len, st => st.advanceData len >>= fun st => .ok (.done,st)
  | .currentData, st => st.currentData decompress >>= fun r => .ok (.bytes r.1,r.2)
  | .remainingData, st => st.remainingData decompress >>= fun r => .ok (.size r.1,r.2)

theorem readerCall_safe (decompress : Bytes → Nat → Block) (call : ReaderCall)
    (st : ReaderMemory) (h : st.Steady) :
    Safe (fun r => r.2.Steady) (readerCall decompress call st) := by
  cases call with
  | getPod size => exact (ReaderMemory.getPod_safe h size).bind fun _ hr => hr
  | getPodContiguous size => exact (ReaderMemory.takePod_safe h size).bind fun _ hr => hr
  | getData out => exact (ReaderMemory.getData_safe h out).bind fun _ hr => hr
  | getPtr len => exact (ReaderMemory.getPtr_safe h len).bind fun _ hr => hr
  | advanceData len => exact (ReaderMemory.advanceData_safe h len).bind fun _ hr => hr
  | currentData => exact (ReaderMemory.currentData_safe h).bind fun _ hr => hr
  | remainingData => exact (ReaderMemory.remainingData_safe h).bind fun _ hr => hr

/-- On any stream and with any decompressor that keeps to its capacity, no sequence of calls
has the block reader read or write out of bounds. -/
theorem block_reader_bounds (decompress : Bytes → Nat → Block) (stream : Bytes)
    (block : BlockMemory) (zblock : ZblockMemory) (calls : List ReaderCall) :
    runAll (readerCall decompress) calls { stream, block, zblock } ≠ .error .wild ∧
    ∀ answers st,
      runAll (readerCall decompress) calls { stream, block, zblock } = .ok (answers,st) →
        st.dataOffset ≤ st.currentBlocksize ∧ st.currentBlocksize ≤ maxBlocksize ∧
        sub32 st.currentBlocksize st.dataOffset = st.currentBlocksize - st.dataOffset := by
  have hstart : ReaderMemory.Steady { stream, block, zblock } := ⟨Nat.le_refl 0,Nat.zero_le _⟩
  have hrun := runAll_safe (readerCall_safe decompress) calls hstart
  refine ⟨hrun.not_wild,fun answers st hr => ?_⟩
  have hst := hrun.of_ok hr
  exact ⟨hst.offset,hst.size,hst.left_eq⟩

/-! A program of the deserializer, run on this reader. -/

def GetOp.toCall (buffer : Nat → Bytes) : GetOp → ReaderCall
  | .pod size => .getPod size
  | .podContiguous size => .getPodContiguous size
  | .data len => .getData (buffer len)

def ReaderAnswer.contents : ReaderAnswer → Bytes
  | .bytes bs => bs
  | .nullptr | .size _ | .done => []

/-- Whatever is in the buffers that payloads are read into. -/
def runMemory {α : Type} (decompress : Bytes → Nat → Block)
    (buffer : ReaderMemory → Nat → Bytes) : Reader α → ReaderMemory →
    ReaderCheck (α × ReaderMemory)
  | .ret a, st => .ok (a,st)
  | .fail e, _ => throwing (.error e)
  | .ask op k, st =>
      readerCall decompress (op.toCall (buffer st)) st >>= fun r =>
        runMemory decompress buffer (k r.1.contents) r.2

namespace ReaderMemory

theorem Mirrors.mono {α β : Type} {R R' : α → β → Prop} {x : ReaderCheck (α × ReaderMemory)}
    {y : Except (Halt ReadError) (β × Cursor Bytes)} (h : Mirrors R x y)
    (hr : ∀ a b c, y = .ok (b,c) → R a b → R' a b) : Mirrors R' x y := by
  cases x with
  | ok x =>
    cases y with
    | ok y => exact ⟨hr _ _ _ rfl h.1,h.2⟩
    | error e => exact h
  | error e => cases e <;> cases y <;> exact h

theorem Mirrors.answer {x : ReaderCheck (Bytes × ReaderMemory)}
    {y : Except (Halt ReadError) (Bytes × Cursor Bytes)} (h : Mirrors Eq x y) :
    Mirrors (fun answer bs => answer.contents = bs)
      (x >>= fun r => .ok (ReaderAnswer.bytes r.1,r.2)) y := by
  cases x with
  | ok x => cases y <;> exact h
  | error e => cases e <;> cases y <;> exact h

variable (dp : Decompressor)

/-- A payload fills the buffer, so that nothing of what was in it is left. -/
theorem getData_fills {st : ReaderMemory} {c : Cursor Bytes} (h : Shows st.reader c) {out : Bytes}
    (hlen : out.length < 2 ^ 64) :
    Mirrors Eq (st.getData dp.decompress out)
      (Cursor.getData (streamSource dp) out.length c) := by
  refine (getData_mirrors h hlen).mono fun out' o c' hy ⟨hfront,hout⟩ => ?_
  have hexact : o.length = out.length :=
    channel_exact (.data out.length) _ o _ (cursor_unrolled_channel h.pending_le hy)
  exact (hfront.eq_of_length (hexact.trans hout.symm)).symm

theorem readerCall_mirrors {st : ReaderMemory} {c : Cursor Bytes} (h : Shows st.reader c)
    {op : GetOp} (hop : op.Addressable) {buffer : Nat → Bytes}
    (hbuffer : ∀ n, (buffer n).length = n) :
    Mirrors (fun answer bs => answer.contents = bs)
      (readerCall dp.decompress (op.toCall buffer) st) (cursor (streamSource dp) op c) := by
  cases op with
  | pod size => exact (getPod_mirrors h size).answer
  | podContiguous size => exact (takePod_mirrors h size).answer
  | data len =>
    have hlen := hbuffer len
    have hdata := getData_fills dp h (hlen.trans_lt hop)
    rw [hlen] at hdata
    exact hdata.answer

theorem runMemory_mirrors {α : Type} {buffer : ReaderMemory → Nat → Bytes}
    (hbuffer : ∀ st n, (buffer st n).length = n) {p : Reader α} {Q : α → Prop} (hp : Limited p Q)
    {st : ReaderMemory} {c : Cursor Bytes} (h : Shows st.reader c) :
    Mirrors Eq (runMemory dp.decompress buffer p st) (p.run (cursor (streamSource dp)) c) := by
  induction p generalizing st c with
  | ret a => exact ⟨rfl,h⟩
  | fail e => rfl
  | ask op k ih =>
    have hcall := readerCall_mirrors dp h hp.1 (hbuffer st)
    rw [runMemory,Prog.run]
    cases hy : cursor (streamSource dp) op c with
    | error e' =>
      rw [hy] at hcall
      cases hx : readerCall dp.decompress (op.toCall (buffer st)) st with
      | ok x => rw [hx] at hcall; cases hcall
      | error e => rw [hx] at hcall; cases e <;> exact hcall
    | ok y =>
      rw [hy] at hcall
      have hexact := channel_exact op _ y.1 _ (cursor_unrolled_channel h.pending_le hy)
      cases hx : readerCall dp.decompress (op.toCall (buffer st)) st with
      | ok x =>
        rw [hx] at hcall
        obtain ⟨hanswer,hshows⟩ := hcall
        rw [ok_bind,hanswer]
        exact ih y.1 (hp.2 y.1 hexact) hshows
      | error e => rw [hx] at hcall; cases e <;> cases hcall

end ReaderMemory

/-- The deserializer on this reader returns and throws what `read_single_thread` does, on any
stream and whatever memory held before; no access goes astray. -/
theorem readSingleThread_memory (dp : Decompressor) (stream : Bytes) (maxDepth : Nat)
    (block : BlockMemory) (zblock : ZblockMemory) {buffer : ReaderMemory → Nat → Bytes}
    (hbuffer : ∀ st n, (buffer st n).length = n) :
    (runMemory dp.decompress buffer (streamRead maxDepth) { stream, block, zblock }).map Prod.fst =
      (readSingleThread dp stream maxDepth).mapError .thrown := by
  have hstart : Shows (ReaderMemory.reader { stream, block, zblock }) (Cursor.start stream) :=
    ⟨rfl,Nat.le_refl 0,Nat.zero_le _,rfl,rfl⟩
  have hmirrors := ReaderMemory.runMemory_mirrors dp hbuffer (streamRead_limits maxDepth)
    hstart
  have hcursor := (run_cursor (blockCompressReader_cursor (streamSource dp)) (streamRead maxDepth)
    stream).map_fst
  rw [readSingleThread,hcursor]
  generalize (streamRead maxDepth).run (cursor (streamSource dp)) (Cursor.start stream) = y at *
  generalize runMemory dp.decompress buffer (streamRead maxDepth) _ = x at *
  cases x with
  | ok x =>
    cases y with
    | ok y => exact congrArg Except.ok hmirrors.1
    | error e => cases hmirrors
  | error e =>
    cases y with
    | ok y => cases e <;> cases hmirrors
    | error e' =>
      cases e with
      | wild => cases hmirrors
      | thrown e => exact congrArg (fun e => Except.error (Fault.thrown e)) hmirrors

end QData
