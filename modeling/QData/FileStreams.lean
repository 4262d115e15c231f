import QData.QdataFile
import QData.Checksums
import QData.ReaderPipeline
import QData.Lib.Streams
/-! Reading from a file and from memory: the flags of a file stream, and `read_qdata_object`
over whichever stream it is given. -/
set_option autoImplicit false

namespace QData
open Words Requests Streams Systems

/-- `IfStreamReader`: the file behind `con`, its place, and the flags that say it is not
`good()`. -/
structure IfStreamReader where
  bytes : Bytes
  position : Nat := 0
  eofbit : Bool := false
  failbit : Bool := false
  deriving DecidableEq, Repr

namespace IfStreamReader

def good (r : IfStreamReader) : Bool := !r.eofbit && !r.failbit

/-- `con.read`: not `good()` before is a failure, and so is an end before the count. -/
def read (count : Nat) (r : IfStreamReader) : Bytes × IfStreamReader :=
  if r.good then
    let bs := (r.bytes.drop r.position).take count
    (bs,⟨r.bytes,r.position+bs.length,decide (bs.length < count),decide (bs.length < count)⟩)
  else ([],{ r with failbit := true })

def tellg (r : IfStreamReader) : Nat × IfStreamReader :=
  if r.good then (r.position,r) else (2 ^ 64 - 1,{ r with failbit := true })

/-- `clear()`, and then a `seekg` that fails for an offset below zero. -/
def seekg (pos : Nat) (r : IfStreamReader) : IfStreamReader :=
  if pos < 2 ^ 63 then ⟨r.bytes,pos,false,false⟩ else ⟨r.bytes,r.position,false,true⟩

def remaining (r : IfStreamReader) : Bytes := if r.good then r.bytes.drop r.position else []

theorem read_bytes (count : Nat) (r : IfStreamReader) : (r.read count).2.bytes = r.bytes := by
  rw [read]
  split <;> rfl

theorem remaining_good {r : IfStreamReader} (h : r.good = true) :
    r.remaining = r.bytes.drop r.position := if_pos h

theorem remaining_failed {r : IfStreamReader} (h : r.good = false) : r.remaining = [] := by
  rw [remaining,h]
  rfl

theorem read_first (count : Nat) (r : IfStreamReader) :
    (r.read count).1 = r.remaining.take count := by
  rw [read,remaining]
  split
  · rfl
  · rw [List.take_nil]

theorem remaining_read (count : Nat) (r : IfStreamReader) :
    (r.read count).2.remaining = r.remaining.drop count := by
  cases hg : r.good with
  | false =>
    have hfailed : (r.read count).2.good = false := by
      rw [read,hg]
      exact Bool.and_false _
    rw [remaining_failed hfailed,remaining_failed hg,List.drop_nil]
  | true =>
    rw [remaining_good hg]
    by_cases hshort : ((r.bytes.drop r.position).take count).length < count
    · -- the end sets the flags, and nothing is left behind it
      have hfailed : (r.read count).2.good = false := by
        rw [read,hg,if_pos rfl,good]
        simp only [hshort,decide_true,Bool.not_true,Bool.false_and]
      rw [List.length_take] at hshort
      rw [remaining_failed hfailed,List.drop_of_length_le (by omega)]
    · have hgood : (r.read count).2.good = true := by
        rw [read,hg,if_pos rfl,good]
        simp only [hshort,decide_false,Bool.not_false,Bool.and_self]
      have hl : ((r.bytes.drop r.position).take count).length = count := by
        rw [List.length_take] at hshort ⊢
        omega
      have hposition : (r.read count).2.position = r.position+count := by
        rw [read,hg,if_pos rfl]
        simp only [hl]
      rw [remaining_good hgood,read_bytes,hposition,List.drop_drop]

theorem reads_bytes {r s : IfStreamReader}
    (h : Runs (fun s t => ∃ n, t = (IfStreamReader.read n s).2) r s) : s.bytes = r.bytes :=
  invariant (I := fun s => s.bytes = r.bytes) rfl
    (fun _ _ hs ⟨n,ht⟩ => by rw [ht,read_bytes,hs]) h

theorem read_budget (count : Nat) (r : IfStreamReader) :
    (r.read count).2.remaining.length+(r.read count).1.length ≤ r.remaining.length := by
  rw [remaining_read,read_first,List.length_drop,List.length_take]
  omega

end IfStreamReader

theorem InStream.read_budget (count : Nat) (r : InStream) :
    (r.read count).2.remaining.length+(r.read count).1.length ≤ r.remaining.length := by
  rw [remaining_read,read,List.length_drop,List.length_take]
  omega

def ifStreamReader : Input IfStreamReader UInt8 where
  read := IfStreamReader.read
  tell := IfStreamReader.tellg
  seek := IfStreamReader.seekg
  budget := fun r => r.remaining.length
  read_budget := IfStreamReader.read_budget

def memoryReader : Input InStream UInt8 where
  read := InStream.read
  tell := fun r => (r.tellg,r)
  seek := InStream.seekg
  budget := fun r => r.remaining.length
  read_budget := InStream.read_budget

def IfStreamReader.Inside (r : IfStreamReader) : Prop :=
  r.bytes.length < 2 ^ 63 ∧ r.position ≤ r.bytes.length

theorem IfStreamReader.Inside.read {r : IfStreamReader} (h : r.Inside) (count : Nat) :
    (r.read count).2.Inside := by
  refine ⟨(read_bytes count r).symm ▸ h.1,?_⟩
  have hp := h.2
  rw [read_bytes,IfStreamReader.read]
  split
  · simp only [List.length_take,List.length_drop]
    omega
  · exact hp

theorem IfStreamReader.Inside.reads {r s : IfStreamReader} (h : r.Inside)
    (hreads : ifStreamReader.Reads r s) : s.Inside :=
  invariant h (fun _ _ hs ⟨n,ht⟩ => ht ▸ hs.read n) hreads

/-- A file passes for its bytes: also behind its end, where only `clear()` makes a place that
was told before count again. -/
theorem ifStreamReader_serves :
    ifStreamReader.Serves IfStreamReader.Inside IfStreamReader.remaining where
  read := fun n r h => ⟨r.read_first n,r.remaining_read n,h.read n⟩
  tell := by
    intro r h
    simp only [ifStreamReader,IfStreamReader.tellg]
    cases hg : r.good with
    | true => exact ⟨rfl,h⟩
    | false =>
      have hfailed : ({ r with failbit := true } : IfStreamReader).good = false := Bool.and_false _
      exact ⟨by rw [if_neg (by simp),IfStreamReader.remaining_failed hfailed,
        IfStreamReader.remaining_failed hg],h⟩
  back := by
    intro r s h hreads
    have htold : (ifStreamReader.tell r).2.Inside := by
      simp only [ifStreamReader,IfStreamReader.tellg]
      split <;> exact h
    have hinside := htold.reads hreads
    have hbytes := IfStreamReader.reads_bytes hreads
    obtain ⟨hfile,hposition⟩ := h
    simp only [ifStreamReader,IfStreamReader.tellg,IfStreamReader.seekg] at hbytes ⊢
    cases hg : r.good with
    | true =>
      rw [hg,if_pos rfl] at hbytes
      rw [if_pos rfl,if_pos (by omega : r.position < 2 ^ 63),hbytes,
        IfStreamReader.remaining_good hg]
      exact ⟨rfl,hfile,hposition⟩
    | false =>
      rw [IfStreamReader.remaining_failed hg]
      exact ⟨rfl,hinside⟩

theorem memoryReader_serves :
    memoryReader.Serves (fun r => r.position ≤ r.bytes.length) InStream.remaining where
  read := fun n r h => ⟨rfl,r.remaining_read n,InStream.position_read_le h n⟩
  tell := fun r h => ⟨rfl,h⟩
  back := by
    intro r s h hreads
    have hbytes : s.bytes = r.bytes :=
      invariant (I := fun s => s.bytes = r.bytes) rfl (fun _ _ hs ⟨n,ht⟩ => by rw [ht]; exact hs)
        hreads
    simp only [memoryReader,InStream.tellg,InStream.seekg,hbytes,Nat.min_eq_left h]
    exact ⟨trivial,h⟩

/-! `read_qdata_object` and what it calls, over a stream of any kind. -/

inductive NextZblock (σ : Type) where
  | noSize : NextZblock σ
  | oversized : NextZblock σ
  | truncated : NextZblock σ
  | zblock (zsize : Nat) (zbytes : Bytes) (stream : σ) : NextZblock σ

section
variable {σ : Type} (input : Input σ UInt8)

def nextZblock (stream : σ) : NextZblock σ :=
  let size := input.read 4 stream
  if size.1.length ≠ 4 then .noSize
  else
    let zsize := toNat size.1
    let zbytes := compressedBlockSize zsize
    if compressedBlockSizeFitsBuffer zsize then
      let block := input.read zbytes size.2
      if block.1.length ≠ zbytes then .truncated else .zblock zsize block.1 block.2
    else .oversized

theorem nextZblock_budget {stream stream' : σ} {zsize : Nat} {zbytes : Bytes}
    (h : nextZblock input stream = .zblock zsize zbytes stream') :
    input.budget stream' < input.budget stream := by
  have hsize := input.read_budget 4 stream
  have hblock := input.read_budget (compressedBlockSize (toNat (input.read 4 stream).1))
    (input.read 4 stream).2
  simp only [nextZblock] at h
  by_cases hfour : (input.read 4 stream).1.length ≠ 4
  · rw [if_pos hfour] at h
    cases h
  rw [if_neg hfour] at h
  by_cases hfits : compressedBlockSizeFitsBuffer (toNat (input.read 4 stream).1) = true
  swap
  · rw [if_neg hfits] at h
    cases h
  rw [if_pos hfits] at h
  by_cases hshort : (input.read (compressedBlockSize (toNat (input.read 4 stream).1))
      (input.read 4 stream).2).1.length ≠ compressedBlockSize (toNat (input.read 4 stream).1)
  · rw [if_pos hshort] at h
    cases h
  rw [if_neg hshort,NextZblock.zblock.injEq] at h
  rw [← h.2.2]
  omega

def decompressFrom (dp : Decompressor) (stream : σ) : Except (Halt ReadError) (Block × σ) :=
  match nextZblock input stream with
  | .noSize => .error (cleanupHalt "Unexpected end of file while reading next block size")
  | .oversized => .error (cleanupHalt "Compressed block size exceeds internal maximum")
  | .truncated => .error (cleanupHalt "Unexpected end of file while reading next block")
  | .zblock zsize zbytes stream =>
      if (dp.decompress zbytes zsize).1 = [] then .error (cleanupHalt "Decompression error")
      else .ok (dp.decompress zbytes zsize,stream)

theorem decompressFrom_budget {dp : Decompressor} {stream stream' : σ} {b : Block}
    (h : decompressFrom input dp stream = .ok (b,stream')) :
    input.budget stream' < input.budget stream := by
  simp only [decompressFrom] at h
  split at h
  · cases h
  · cases h
  · cases h
  · next hz =>
    split at h
    · cases h
    · cases h
      exact nextZblock_budget input hz

def inputSource (dp : Decompressor) : BlockSource σ where
  fetch := decompressFrom input dp
  budget := input.budget
  fetch_budget := fun _ _ _ h => decompressFrom_budget input h

/-- What `read_next_zblock` hands on until it returns false, and what it has seen then. -/
def zblocksFrom (stream : σ) : List Zbytes × Zblock :=
  match _h : nextZblock input stream with
  | .noSize => ([],.noSize)
  | .oversized => ([],.oversized)
  | .truncated => ([],.truncated)
  | .zblock zsize zbytes stream =>
      (⟨zsize,zbytes⟩ :: (zblocksFrom stream).1,(zblocksFrom stream).2)
termination_by input.budget stream
decreasing_by all_goals exact nextZblock_budget input _h

def readQdataHeaderFrom (stream : σ) : ReadResult (QdataHeader × σ) :=
  let (bits,stream) := input.read 24 stream
  match readQdataHeader bits with
  | .error e => .error e
  | .ok (header,_) => .ok (header,stream)

def readQxHashFrom (xxh : Bytes → UInt64) (stream : σ) : UInt64 × σ :=
  let (currentPosition,stream) := input.tell stream
  let (fed,stream) := input.toEnd maxZblocksize [] stream
  (digest xxh fed,input.seek currentPosition stream)

def readQdataObjectStartFrom (xxh : Bytes → UInt64) (validateChecksum : Bool) (stream : σ) :
    ReadResult (QdataHeader × σ) :=
  match readQdataHeaderFrom input stream with
  | .error e => .error e
  | .ok (header,stream) =>
      if validateChecksum then
        if header.hash = 0 then
          .error (thrown "qdata input does not contain a stored checksum")
        else
          let (computedHash,stream) := readQxHashFrom input xxh stream
          if computedHash ≠ header.hash then .error (thrown "qdata checksum mismatch")
          else .ok (header,stream)
      else .ok (header,stream)

def readSingleThreadFrom (dp : Decompressor) (stream : σ) (maxDepth : Nat) : ReadResult Object :=
  ((streamRead maxDepth).run (blockCompressReader (inputSource input dp)) (.start stream)).map
    Prod.fst

def readQdataObjectFrom (z : Zstd) (xxh : Bytes → UInt64) (validateChecksum : Bool)
    (maxDepth : Nat) (stream : σ) : ReadResult Object :=
  match readQdataObjectStartFrom input xxh validateChecksum stream with
  | .error e => .error e
  | .ok (header,stream) =>
      readSingleThreadFrom input (z.decompressor header.shuffle) stream maxDepth

end

theorem zblocksFrom_next {σ : Type} (input : Input σ UInt8) (stream : σ) :
    zblocksFrom input stream = match nextZblock input stream with
      | .noSize => ([],.noSize)
      | .oversized => ([],.oversized)
      | .truncated => ([],.truncated)
      | .zblock zsize zbytes stream =>
          (⟨zsize,zbytes⟩ :: (zblocksFrom input stream).1,(zblocksFrom input stream).2) := by
  rw [zblocksFrom]
  split <;> next h => rw [h]

theorem readQdataHeader_take (bytes : Bytes) :
    readQdataHeader (bytes.take 24) = (readQdataHeader bytes).map fun x => (x.1,[]) := by
  have hpad : 24 - (bytes.take 24).length = 24 - bytes.length := by
    rw [List.length_take]
    omega
  have hdrop : (bytes.take 24).drop 24 = [] := List.drop_of_length_le (by rw [List.length_take]; omega)
  rw [readQdataHeader,readQdataHeader,List.take_take,hpad,hdrop]
  simp only [Nat.min_self]
  split
  · split
    · rfl
    · split <;> rfl
  · split
    · rfl
    · split
      · rfl
      · split <;> rfl

section
variable {σ : Type} {input : Input σ UInt8} {I : σ → Prop} {rest : σ → Bytes}
  (h : input.Serves I rest) {stream : σ} (hs : I stream)
include h hs

theorem nextZblock_cases :
    (nextZblock input stream = .noSize ∧ readZblock (rest stream) = .noSize) ∨
    (nextZblock input stream = .oversized ∧ readZblock (rest stream) = .oversized) ∨
    (nextZblock input stream = .truncated ∧ readZblock (rest stream) = .truncated) ∨
    ∃ zsize zbytes stream', nextZblock input stream = .zblock zsize zbytes stream' ∧
      readZblock (rest stream) = .zblock zsize zbytes (rest stream') ∧ I stream' := by
  obtain ⟨hsize,hrest,hi⟩ := h.read 4 stream hs
  simp only [nextZblock,readZblock,hsize]
  by_cases hfour : (rest stream).length < 4
  · have hne : ((rest stream).take 4).length ≠ 4 := by
      rw [List.length_take]
      omega
    exact .inl ⟨if_pos hne,if_pos hfour⟩
  have heq : ¬ ((rest stream).take 4).length ≠ 4 := by
    rw [List.length_take]
    omega
  rw [if_neg hfour,if_neg heq]
  generalize toNat ((rest stream).take 4) = zsize
  obtain ⟨hblock,hbehind,hi'⟩ := h.read (compressedBlockSize zsize) _ hi
  rw [hrest] at hblock hbehind
  by_cases hfits : compressedBlockSizeFitsBuffer zsize = true
  swap
  · exact .inr (.inl ⟨if_neg hfits,if_neg hfits⟩)
  rw [if_pos hfits,if_pos hfits,hblock]
  by_cases hshort : ((rest stream).drop 4).length < compressedBlockSize zsize
  · have hne : (((rest stream).drop 4).take (compressedBlockSize zsize)).length ≠
        compressedBlockSize zsize := by
      rw [List.length_take]
      omega
    exact .inr (.inr (.inl ⟨if_pos hne,if_pos hshort⟩))
  · have heq : ¬ (((rest stream).drop 4).take (compressedBlockSize zsize)).length ≠
        compressedBlockSize zsize := by
      rw [List.length_take]
      omega
    exact .inr (.inr (.inr ⟨_,_,_,if_neg heq,by rw [if_neg hshort,hbehind],hi'⟩))

theorem fetch_cases (dp : Decompressor) :
    (∃ e, (inputSource input dp).fetch stream = .error e ∧
      (streamSource dp).fetch (rest stream) = .error e) ∨
    ∃ b stream', (inputSource input dp).fetch stream = .ok (b,stream') ∧
      (streamSource dp).fetch (rest stream) = .ok (b,rest stream') ∧ I stream' := by
  simp only [inputSource,streamSource,decompressFrom,decompressNext]
  rcases nextZblock_cases h hs with ⟨hz,hz'⟩ | ⟨hz,hz'⟩ | ⟨hz,hz'⟩ | ⟨zsize,zbytes,next,hz,hz',hi⟩
  · rw [hz,hz']
    exact .inl ⟨_,rfl,rfl⟩
  · rw [hz,hz']
    exact .inl ⟨_,rfl,rfl⟩
  · rw [hz,hz']
    exact .inl ⟨_,rfl,rfl⟩
  · rw [hz,hz']
    by_cases hnil : (dp.decompress zbytes zsize).1 = []
    · exact .inl ⟨_,if_pos hnil,if_pos hnil⟩
    · exact .inr ⟨_,_,if_neg hnil,if_neg hnil,hi⟩

theorem inputSource_feed (dp : Decompressor) :
    (inputSource input dp).feed stream = (streamSource dp).feed (rest stream) := by
  induction hn : input.budget stream using Nat.strongRecOn generalizing stream with
  | ind n ih =>
    rcases fetch_cases h hs dp with ⟨e,hfrom,hbytes⟩ | ⟨b,next,hfrom,hbytes,hi⟩
    · rw [BlockSource.feed_error hfrom,BlockSource.feed_error hbytes]
    · rw [BlockSource.feed_ok hfrom,BlockSource.feed_ok hbytes,
        ih _ (hn ▸ (inputSource input dp).fetch_budget _ _ _ hfrom) hi rfl]

theorem zblocksFrom_eq :
    zblocksFrom input stream = (zblocks (rest stream),streamEnd (rest stream)) := by
  induction hn : input.budget stream using Nat.strongRecOn generalizing stream with
  | ind n ih =>
    rw [zblocksFrom_next]
    rcases nextZblock_cases h hs with ⟨hz,hz'⟩ | ⟨hz,hz'⟩ | ⟨hz,hz'⟩ | ⟨zsize,zbytes,next,hz,hz',hi⟩
    · obtain ⟨hnone,hlast⟩ := @zblocks_end (rest stream) (by simp [hz'])
      rw [hz,hnone,hlast,hz']
    · obtain ⟨hnone,hlast⟩ := @zblocks_end (rest stream) (by simp [hz'])
      rw [hz,hnone,hlast,hz']
    · obtain ⟨hnone,hlast⟩ := @zblocks_end (rest stream) (by simp [hz'])
      rw [hz,hnone,hlast,hz']
    · obtain ⟨hcons,hlast⟩ := zblocks_cons hz'
      have hnext := ih _ (hn ▸ nextZblock_budget input hz) hi rfl
      simp only [hz,hnext,hcons,hlast]

theorem readQdataHeaderFrom_ok {header : QdataHeader} {bytes : Bytes}
    (hr : readQdataHeader (rest stream) = .ok (header,bytes)) :
    readQdataHeaderFrom input stream = .ok (header,(input.read 24 stream).2) := by
  simp only [readQdataHeaderFrom,(h.read 24 stream hs).1,readQdataHeader_take,hr]
  rfl

theorem readQdataHeaderFrom_error {e : Halt ReadError}
    (hr : readQdataHeader (rest stream) = .error e) :
    readQdataHeaderFrom input stream = .error e := by
  simp only [readQdataHeaderFrom,(h.read 24 stream hs).1,readQdataHeader_take,hr]
  rfl

theorem readQxHashFrom_eq (xxh : Bytes → UInt64) :
    (readQxHashFrom input xxh stream).1 = readQxHash xxh (rest stream) ∧
      rest (readQxHashFrom input xxh stream).2 = rest stream ∧
      I (readQxHashFrom input xxh stream).2 := by
  obtain ⟨htold,hi⟩ := h.tell stream hs
  have hpiece : 0 < maxZblocksize := by decide
  have hfed := h.toEnd hpiece [] hi
  refine ⟨?_,h.back stream _ hs (input.toEnd_reads _ _ _)⟩
  rw [readQxHash_eq,readQxHashFrom]
  simp only [hfed,htold,List.nil_append]

theorem readQdataObjectStartFrom_related (xxh : Bytes → UInt64) (validateChecksum : Bool) :
    Related (fun s (r : InStream) => rest s = r.remaining ∧ I s) Eq
      (readQdataObjectStartFrom input xxh validateChecksum stream)
      (readQdataObjectStart xxh validateChecksum ⟨rest stream,0⟩) := by
  have hwhole : (InStream.mk (rest stream) 0).remaining = rest stream := rfl
  have hposition := @InStream.position_read_le ⟨rest stream,0⟩ (Nat.zero_le _) 24
  have hleft := InStream.remaining_read 24 ⟨rest stream,0⟩
  rw [hwhole] at hleft
  rw [readQdataObjectStart,hwhole,readQdataObjectStartFrom]
  cases hheader : readQdataHeader (rest stream) with
  | error e =>
    rw [readQdataHeaderFrom_error h hs hheader]
    exact rfl
  | ok x =>
    obtain ⟨_,hbehind,hi⟩ := h.read 24 stream hs
    obtain ⟨hhash,hback,hiback⟩ := readQxHashFrom_eq h hi xxh
    rw [readQdataHeaderFrom_ok h hs hheader]
    simp only [hhash,readQxHashAt_eq xxh hposition,hleft,hbehind]
    cases validateChecksum with
    | false => exact ⟨rfl,hbehind.trans hleft.symm,hi⟩
    | true =>
      simp only [if_true]
      by_cases hz : x.1.hash = 0
      · rw [if_pos hz,if_pos hz]
        exact rfl
      · rw [if_neg hz,if_neg hz]
        by_cases hne : readQxHash xxh ((rest stream).drop 24) ≠ x.1.hash
        · rw [if_pos hne,if_pos hne]
          exact rfl
        · rw [if_neg hne,if_neg hne]
          exact ⟨rfl,hback.trans (hbehind.trans hleft.symm),hiback⟩

theorem readSingleThreadFrom_eq (dp : Decompressor) (maxDepth : Nat) :
    readSingleThreadFrom input dp stream maxDepth = readSingleThread dp (rest stream) maxDepth := by
  rw [readSingleThread_eq,← inputSource_feed h hs,readSingleThreadFrom,
    (run_cursor (blockCompressReader_cursor _) _ stream).map_fst]
  exact (run_unroll _ _ stream).map_fst

/-- Over any stream that passes for some bytes, reading is reading those bytes. -/
theorem readQdataObjectFrom_eq (z : Zstd) (xxh : Bytes → UInt64) (validateChecksum : Bool)
    (maxDepth : Nat) :
    readQdataObjectFrom input z xxh validateChecksum maxDepth stream =
      readQdataObject z xxh validateChecksum maxDepth (rest stream) := by
  have hstart := readQdataObjectStartFrom_related h hs xxh validateChecksum
  rw [← readQdataObjectAt_eq,readQdataObjectFrom,readQdataObjectAt]
  cases hr : readQdataObjectStart xxh validateChecksum ⟨rest stream,0⟩ with
  | error e =>
    rw [hr] at hstart
    cases hf : readQdataObjectStartFrom input xxh validateChecksum stream with
    | error e' =>
      rw [hf] at hstart
      exact congrArg Except.error hstart
    | ok x =>
      rw [hf] at hstart
      cases hstart
  | ok x =>
    obtain ⟨header,r⟩ := x
    rw [hr] at hstart
    obtain ⟨stream',hok,hrest,hi⟩ := hstart.ok_right
    rw [hok]
    simp only
    rw [readSingleThreadFrom_eq h hi,hrest]

theorem readQdataObjectStartFrom_zblocks (xxh : Bytes → UInt64) (validateChecksum : Bool) :
    (readQdataObjectStartFrom input xxh validateChecksum stream).map
        (fun x => (x.1,zblocksFrom input x.2)) =
      (readQdataObjectStart xxh validateChecksum ⟨rest stream,0⟩).map
        (fun x => (x.1,zblocks x.2.remaining,streamEnd x.2.remaining)) := by
  have hstart := readQdataObjectStartFrom_related h hs xxh validateChecksum
  cases hr : readQdataObjectStart xxh validateChecksum ⟨rest stream,0⟩ with
  | error e =>
    rw [hr] at hstart
    cases hf : readQdataObjectStartFrom input xxh validateChecksum stream with
    | error e' =>
      rw [hf] at hstart
      exact congrArg Except.error hstart
    | ok x =>
      rw [hf] at hstart
      cases hstart
  | ok x =>
    obtain ⟨header,r⟩ := x
    rw [hr] at hstart
    obtain ⟨stream',hok,hrest,hi⟩ := hstart.ok_right
    rw [hok]
    simp only [Except.map]
    rw [zblocksFrom_eq h hi,hrest]

end

/-- Reading a file is reading its bytes from memory: with one thread the same object or the
same exception, with several the same start and the same blocks for the source to draw. -/
theorem file_reads_like_memory {bytes : Bytes} (h : bytes.length < 2 ^ 63) (xxh : Bytes → UInt64)
    (validateChecksum : Bool) :
    (∀ z maxDepth,
      readQdataObjectFrom ifStreamReader z xxh validateChecksum maxDepth { bytes := bytes } =
        readQdataObjectFrom memoryReader z xxh validateChecksum maxDepth ⟨bytes,0⟩ ∧
      readQdataObjectFrom memoryReader z xxh validateChecksum maxDepth ⟨bytes,0⟩ =
        readQdataObject z xxh validateChecksum maxDepth bytes) ∧
    (readQdataObjectStartFrom ifStreamReader xxh validateChecksum { bytes := bytes }).map
        (fun x => (x.1,zblocksFrom ifStreamReader x.2)) =
      (readQdataObjectStartFrom memoryReader xxh validateChecksum ⟨bytes,0⟩).map
        (fun x => (x.1,zblocksFrom memoryReader x.2)) ∧
    (readQdataObjectStartFrom memoryReader xxh validateChecksum ⟨bytes,0⟩).map
        (fun x => (x.1,zblocksFrom memoryReader x.2)) =
      (readQdataObjectStart xxh validateChecksum ⟨bytes,0⟩).map
        (fun x => (x.1,zblocks x.2.remaining,streamEnd x.2.remaining)) := by
  have hfile : IfStreamReader.Inside { bytes := bytes } := ⟨h,Nat.zero_le _⟩
  have hmemory : (InStream.mk bytes 0).position ≤ (InStream.mk bytes 0).bytes.length :=
    Nat.zero_le _
  have hsame : IfStreamReader.remaining { bytes := bytes } = (InStream.mk bytes 0).remaining := rfl
  refine ⟨fun z maxDepth => ⟨?_,readQdataObjectFrom_eq memoryReader_serves hmemory z xxh _ _⟩,?_,
    readQdataObjectStartFrom_zblocks memoryReader_serves hmemory xxh validateChecksum⟩
  · rw [readQdataObjectFrom_eq ifStreamReader_serves hfile,
      readQdataObjectFrom_eq memoryReader_serves hmemory,hsame]
  · rw [readQdataObjectStartFrom_zblocks ifStreamReader_serves hfile,
      readQdataObjectStartFrom_zblocks memoryReader_serves hmemory,hsame]

/-- A file that ends inside its header, where validation reads and seeks after a failure. -/
theorem file_reads_like_memory_short :
    readQdataObjectFrom ifStreamReader storedZstd (fun _ => 5) true 1
        { bytes := qdataMagicBits ++ [1,1,2] ++ List.replicate 9 0 ++ [5] } =
      readQdataObject storedZstd (fun _ => 5) true 1
        (qdataMagicBits ++ [1,1,2] ++ List.replicate 9 0 ++ [5]) := by
  have h := (@file_reads_like_memory (qdataMagicBits ++ [1,1,2] ++ List.replicate 9 0 ++ [5])
    (by decide) (fun _ => 5) true).1 storedZstd 1
  exact h.1.trans h.2

end QData
