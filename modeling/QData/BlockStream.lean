import QData.Lockstep
/-! The compressed stream between block writer and block reader: which blocks a reader
finds in what a writer emitted. -/
set_option autoImplicit false

namespace QData
open Words Requests

/-- One block comes back from its compression. -/
def Restores (dp : Decompressor) (cp : Compressor) (k : Nat) (b : Bytes) : Prop :=
  (dp.decompress (cp k b).bytes (cp k b).zsize).1 = b

/-- Decompression inverts every compression that reported no error. -/
def Lossless (dp : Decompressor) (cp : Compressor) : Prop :=
  ∀ k b, 0 < b.length → b.length ≤ maxBlocksize → (cp k b).zsize ≠ compressionError →
    Restores dp cp k b

/-- A compressor that has what it needs for every block. -/
def NeverFails (cp : Compressor) : Prop :=
  ∀ k b, 0 < b.length → b.length ≤ maxBlocksize → (cp k b).zsize ≠ compressionError

def BlockSizes (blocks : List Bytes) : Prop :=
  ∀ b ∈ blocks, 0 < b.length ∧ b.length ≤ maxBlocksize

theorem BlockSizes.flatten_take {blocks : List Bytes} (h : BlockSizes blocks) {j : Nat}
    (hj : (blocks.take j).flatten = blocks.flatten) : blocks.length ≤ j := by
  have hsplit : (blocks.take j).flatten ++ (blocks.drop j).flatten = (blocks.take j).flatten := by
    rw [← List.flatten_append,List.take_append_drop,hj]
  rw [List.append_right_eq_self] at hsplit
  cases hd : blocks.drop j with
  | nil => exact List.drop_eq_nil_iff.mp hd
  | cons b rest =>
    have hb := (h b (List.mem_of_mem_drop (by rw [hd]; exact List.mem_cons_self))).1
    rw [hd,List.flatten_cons,List.append_eq_nil_iff] at hsplit
    rw [hsplit.1] at hb
    cases hb

theorem readZblock_emit (z : Compressed) (rest : Bytes) :
    readZblock (z.emit ++ rest) = .zblock z.zsize z.bytes rest := by
  have hlen : ¬ (z.emit ++ rest).length < 4 := by simp [Compressed.emit]
  have htake : (z.emit ++ rest).take 4 = toBytes 4 z.zsize := by
    simp [Compressed.emit]
  have hdrop : (z.emit ++ rest).drop 4 = z.bytes ++ rest := by
    simp [Compressed.emit]
  have hsize : toNat (toBytes 4 z.zsize) = z.zsize := toNat_toBytes (by simpa using z.word)
  have hfits : compressedBlockSizeFitsBuffer z.zsize = true := by
    simpa [compressedBlockSizeFitsBuffer] using z.fits
  rw [readZblock,if_neg hlen,htake,hdrop,hsize]
  simp only [hfits,if_true,← z.size_eq]
  rw [if_neg (by simp)]
  simp

theorem feed_nil (dp : Decompressor) :
    (streamSource dp).feed [] =
      ⟨[],cleanupHalt "Unexpected end of file while reading next block size"⟩ :=
  BlockSource.feed_error rfl

theorem feed_emit {dp : Decompressor} {cp : Compressor} {k : Nat} {b : Bytes}
    (hne : b ≠ []) (hr : Restores dp cp k b) (rest : Bytes) :
    (streamSource dp).feed ((cp k b).emit ++ rest) =
      ⟨dp.decompress (cp k b).bytes (cp k b).zsize :: ((streamSource dp).feed rest).blocks,
        ((streamSource dp).feed rest).stop⟩ := by
  apply BlockSource.feed_ok
  have hnonempty : (dp.decompress (cp k b).bytes (cp k b).zsize).1 ≠ [] := by
    rw [show (dp.decompress (cp k b).bytes (cp k b).zsize).1 = b from hr]
    exact hne
  simp only [streamSource,decompressNext,readZblock_emit]
  rw [if_neg hnonempty]

theorem feed_emit_error {dp : Decompressor} {cp : Compressor} {k : Nat} {b : Bytes}
    (h : (dp.decompress (cp k b).bytes (cp k b).zsize).1 = []) (rest : Bytes) :
    (streamSource dp).feed ((cp k b).emit ++ rest) =
      ⟨[],cleanupHalt "Decompression error"⟩ := by
  apply BlockSource.feed_error
  simp only [streamSource,decompressNext,readZblock_emit]
  rw [if_pos h]

/-- A reader finds the blocks that were emitted, and whatever follows them. -/
theorem feed_emitBlocks {dp : Decompressor} {cp : Compressor} (blocks : List Bytes) (k : Nat)
    (hne : ∀ b ∈ blocks, b ≠ [])
    (hr : ∀ i, (h : i < blocks.length) → Restores dp cp (k+i) blocks[i]) (rest : Bytes) :
    ((streamSource dp).feed (emitBlocks cp k blocks ++ rest)).contents =
        blocks ++ ((streamSource dp).feed rest).contents ∧
      ((streamSource dp).feed (emitBlocks cp k blocks ++ rest)).stop =
        ((streamSource dp).feed rest).stop := by
  induction blocks generalizing k with
  | nil => exact ⟨rfl,rfl⟩
  | cons b blocks ih =>
    have hb : Restores dp cp k b := hr 0 (Nat.zero_lt_succ _)
    have htail : ∀ i, (h : i < blocks.length) → Restores dp cp (k+1+i) blocks[i] := by
      intro i hi
      have hs : Restores dp cp (k+(i+1)) blocks[i] := hr (i+1) (Nat.succ_lt_succ hi)
      rw [show k+(i+1) = k+1+i by omega] at hs
      exact hs
    obtain ⟨hc,hs⟩ := ih (k+1) (fun x hx => hne x (List.mem_cons_of_mem _ hx)) htail
    rw [emitBlocks,List.append_assoc,feed_emit (hne b List.mem_cons_self) hb]
    refine ⟨?_,hs⟩
    have hv : (dp.decompress (cp k b).bytes (cp k b).zsize).1 = b := hb
    simp only [Feed.contents] at hc ⊢
    rw [List.map_cons,hc,hv,List.cons_append]

theorem lossless_restores {dp : Decompressor} {cp : Compressor} (hl : Lossless dp cp)
    (hf : NeverFails cp) {blocks : List Bytes} (hs : BlockSizes blocks) (k : Nat) :
    ∀ i, (h : i < blocks.length) → Restores dp cp (k+i) blocks[i] := by
  intro i h
  obtain ⟨hp,hm⟩ := hs blocks[i] (List.getElem_mem h)
  exact hl _ _ hp hm (hf _ _ hp hm)

theorem BlockSizes.ne_nil {blocks : List Bytes} (h : BlockSizes blocks) :
    ∀ b ∈ blocks, b ≠ [] := fun b hb => List.length_pos_iff.mp (h b hb).1

theorem feed_emitted {dp : Decompressor} {cp : Compressor} {blocks : List Bytes} {k : Nat}
    (hs : BlockSizes blocks)
    (hr : ∀ i, (h : i < blocks.length) → Restores dp cp (k+i) blocks[i]) :
    ((streamSource dp).feed (emitBlocks cp k blocks)).contents = blocks := by
  have hfeed := (feed_emitBlocks blocks k hs.ne_nil hr []).1
  rw [List.append_nil,feed_nil] at hfeed
  simpa [Feed.contents] using hfeed

theorem readZblock_cut {z : Compressed} {p rest tail : Bytes}
    (h : p ++ rest = z.emit ++ tail) (hlen : p.length < z.emit.length) :
    readZblock p = .noSize ∨ readZblock p = .truncated := by
  by_cases hshort : p.length < 4
  · exact .inl (by rw [readZblock,if_pos hshort])
  refine .inr ?_
  have htake : p.take 4 = toBytes 4 z.zsize := by
    have h4 := congrArg (List.take 4) h
    rw [List.take_append_of_le_length (by omega)] at h4
    rw [h4]
    simp [Compressed.emit]
  have hsize : toNat (toBytes 4 z.zsize) = z.zsize := toNat_toBytes (by simpa using z.word)
  have hfits : compressedBlockSizeFitsBuffer z.zsize = true := by
    simpa [compressedBlockSizeFitsBuffer] using z.fits
  rw [readZblock,if_neg hshort,htake,hsize]
  simp only [hfits,if_true]
  rw [if_pos]
  simp only [Compressed.emit,List.length_append,length_toBytes,z.size_eq] at hlen
  simp only [List.length_drop]
  omega

theorem feed_cut {dp : Decompressor} {z : Compressed} {p rest tail : Bytes}
    (h : p ++ rest = z.emit ++ tail) (hlen : p.length < z.emit.length) :
    ((streamSource dp).feed p).contents = [] := by
  have herror : ∃ e, (streamSource dp).fetch p = .error e := by
    rcases readZblock_cut h hlen with hz | hz <;> simp [streamSource,decompressNext,hz]
  obtain ⟨e,he⟩ := herror
  rw [BlockSource.feed_error he]
  rfl

/-- Of any front part of an emitted stream, a reader finds the first blocks. It finds all of
them only in the whole stream, and only if no compression failed. -/
theorem feed_front {dp : Decompressor} {cp : Compressor} (hl : Lossless dp cp)
    {blocks : List Bytes} (hs : BlockSizes blocks) (k : Nat) {p rest : Bytes}
    (h : p ++ rest = emitBlocks cp k blocks) :
    ∃ j, ((streamSource dp).feed p).contents = blocks.take j ∧
      (blocks.length ≤ j → rest = [] ∧
        ∀ i b, blocks[i]? = some b → (cp (k+i) b).zsize ≠ compressionError) := by
  induction blocks generalizing k p with
  | nil =>
    obtain ⟨rfl,rfl⟩ := List.append_eq_nil_iff.mp h
    exact ⟨0,by rw [feed_nil]; rfl,fun _ => ⟨rfl,by simp⟩⟩
  | cons b blocks ih =>
    rw [emitBlocks] at h
    by_cases hlen : p.length < (cp k b).emit.length
    · exact ⟨0,feed_cut h hlen,fun hj => absurd hj (by simp)⟩
    obtain ⟨p',rfl⟩ : ∃ p', p = (cp k b).emit ++ p' :=
      ⟨p.drop (cp k b).emit.length,by
        have ht := congrArg (List.take (cp k b).emit.length) h
        rw [List.take_append_of_le_length (by omega),List.take_left] at ht
        have hp := List.take_append_drop (cp k b).emit.length p
        rw [ht] at hp
        exact hp.symm⟩
    rw [List.append_assoc,List.append_cancel_left_eq] at h
    obtain ⟨hp,hm⟩ := hs b List.mem_cons_self
    by_cases hfail : (cp k b).zsize = compressionError
    · have hbytes : (cp k b).bytes = [] := by
        apply List.eq_nil_of_length_eq_zero
        rw [(cp k b).size_eq,hfail]
        rfl
      have hnothing : (dp.decompress (cp k b).bytes (cp k b).zsize).1 = [] := by
        rw [hbytes]
        exact dp.nothing _
      exact ⟨0,by rw [feed_emit_error hnothing]; rfl,fun hj => absurd hj (by simp)⟩
    have hr : Restores dp cp k b := hl k b hp hm hfail
    obtain ⟨j,hc,hj⟩ := ih (fun x hx => hs x (List.mem_cons_of_mem _ hx)) (k+1) h
    refine ⟨j+1,?_,fun hle => ?_⟩
    · rw [feed_emit (List.length_pos_iff.mp hp) hr]
      have hv : (dp.decompress (cp k b).bytes (cp k b).zsize).1 = b := hr
      simp only [Feed.contents] at hc ⊢
      rw [List.map_cons,hc,hv,List.take_succ_cons]
    · obtain ⟨hrest,hnone⟩ := hj (by simpa using hle)
      refine ⟨hrest,fun i x hx => ?_⟩
      cases i with
      | zero =>
        cases hx
        exact hfail
      | succ i =>
        have hi := hnone i x hx
        rwa [show k+1+i = k+(i+1) by omega] at hi

/-- A call sequence that never runs past the block buffer. `push_pod_contiguous` does not
check for space: a sequence that does run past it has no meaning. -/
def InBounds : Bytes → List PushOp → Prop
  | _, [] => True
  | block, op :: ops =>
      (cutCall block op).2.length ≤ maxBlocksize ∧ InBounds (cutCall block op).2 ops

theorem cutCall_data_room (block bs : Bytes) :
    (cutCall block (.data bs)).2.length < maxBlocksize := by
  rw [cutCall]
  split <;> exact Chunks.cut_rest_lt (by decide) _

theorem cutCall_complete {block : Bytes} (hb : block.length ≤ maxBlocksize) (op : PushOp) :
    ∀ b ∈ (cutCall block op).1, minBlocksize < b.length ∧ b.length ≤ maxBlocksize := by
  have hmin : minBlocksize < maxBlocksize := by decide
  have hpieces : ∀ bs : Bytes, ∀ b ∈ (Chunks.cut maxBlocksize bs).1,
      minBlocksize < b.length ∧ b.length ≤ maxBlocksize := by
    intro bs b hm
    rw [Chunks.cut_length bs b hm]
    exact ⟨hmin,Nat.le_refl _⟩
  cases op with
  | podContiguous bs => intro b hm; cases hm
  | pod bs =>
    rw [cutCall]
    by_cases hm : block.length > minBlocksize
    · rw [if_pos hm]
      intro b hmem
      rw [List.mem_singleton.mp hmem]
      exact ⟨hm,hb⟩
    · rw [if_neg hm]
      intro b hmem
      cases hmem
  | data bs =>
    rw [cutCall]
    by_cases hm : block.length ≥ maxBlocksize
    · rw [if_pos hm]
      intro b hmem
      rcases List.mem_cons.mp hmem with rfl | hmem
      · exact ⟨Nat.lt_of_lt_of_le hmin hm,hb⟩
      · exact hpieces bs b hmem
    · rw [if_neg hm]
      exact hpieces _

theorem cutCall_sizes {block : Bytes} (hb : block.length ≤ maxBlocksize) (op : PushOp) :
    BlockSizes (cutCall block op).1 := by
  intro b hm
  obtain ⟨hmin,hmax⟩ := cutCall_complete hb op b hm
  exact ⟨Nat.lt_of_le_of_lt (Nat.zero_le _) hmin,hmax⟩

theorem blocksOf_sizes {block : Bytes} {ops : List PushOp} (hb : block.length ≤ maxBlocksize)
    (h : InBounds block ops) : BlockSizes (blocksOf block ops) := by
  induction ops generalizing block with
  | nil =>
    intro p hp
    rw [blocksOf_nil,lastBlock] at hp
    by_cases hz : block.length > 0
    · rw [if_pos hz] at hp
      rw [List.mem_singleton.mp hp]
      exact ⟨hz,hb⟩
    · rw [if_neg hz] at hp
      cases hp
  | cons op ops ih =>
    intro p hp
    rw [blocksOf_cons] at hp
    rcases List.mem_append.mp hp with hp | hp
    · exact cutCall_sizes hb op p hp
    · exact ih h.1 h.2 p hp

theorem InBounds.rest_le {block : Bytes} {ops : List PushOp} (hb : block.length ≤ maxBlocksize)
    (h : InBounds block ops) : (cutCalls block ops).2.length ≤ maxBlocksize := by
  induction ops generalizing block with
  | nil => exact hb
  | cons op ops ih => exact ih h.1 h.2

theorem InBounds.cuts {ops : List PushOp} (h : InBounds [] ops)
    (hlong : maxBlocksize < (pushedBytes ops).length) : (cutCalls [] ops).1 ≠ [] := by
  intro hnil
  have hflat := cutCalls_flatten [] ops
  have hle := h.rest_le (Nat.zero_le _)
  rw [hnil,List.flatten_nil,List.nil_append,List.nil_append] at hflat
  rw [hflat] at hle
  omega

/-! A codec in the format's own terms, for use where one is needed: a short block in a
frame with a single raw block, as zstd leaves data it cannot compress, and a longer one
behind a byte that starts no frame. -/

def frameStart (len : Nat) : Bytes :=
  [0x28,0xB5,0x2F,0xFD,0x20,UInt8.ofNat len] ++ toBytes 3 (8*len+1)

def storedFrame (b : Bytes) : Bytes :=
  if b.length < 256 then frameStart b.length ++ b
  else if b.length ≤ maxBlocksize then 0 :: b
  else []

@[simp] theorem length_frameStart (len : Nat) : (frameStart len).length = 9 := rfl

theorem storedFrame_length (b : Bytes) : (storedFrame b).length ≤ maxZblocksize := by
  have hz : maxBlocksize+1 ≤ maxZblocksize := by decide
  rw [storedFrame]
  split
  · simp only [List.length_append,length_frameStart]
    simp only [maxBlocksize] at hz
    omega
  · split
    · simp only [List.length_cons]
      omega
    · simp

def storedCompressor : Compressor := fun _ b =>
  { zsize := (storedFrame b).length
    bytes := storedFrame b
    word := Nat.lt_of_le_of_lt (storedFrame_length b) (by decide)
    size_eq := by
      rw [compressedBlockSize,Nat.mod_eq_of_lt]
      exact Nat.lt_of_le_of_lt (storedFrame_length b) (by decide)
    fits := Nat.le_trans (Nat.mod_le _ _) (storedFrame_length b) }

def unstore : Bytes → Bytes
  | [] => []
  | 0 :: b => b
  | bs => if bs.take 9 = frameStart (bs.drop 9).length then bs.drop 9 else []

def storedDecompressor : Decompressor where
  decompress src _ := if h : (unstore src).length ≤ maxBlocksize then ⟨unstore src,h⟩ else ⟨[],by simp⟩
  nothing _ := rfl

theorem unstore_storedFrame {b : Bytes} (h : b.length ≤ maxBlocksize) :
    unstore (storedFrame b) = b := by
  rw [storedFrame]
  by_cases hs : b.length < 256
  · rw [if_pos hs]
    have ht : (frameStart b.length ++ b).take 9 = frameStart b.length := by
      rw [← length_frameStart b.length,List.take_left]
    have hd : (frameStart b.length ++ b).drop 9 = b := by
      rw [← length_frameStart b.length,List.drop_left]
    have hu : unstore (frameStart b.length ++ b) =
        if (frameStart b.length ++ b).take 9 =
            frameStart ((frameStart b.length ++ b).drop 9).length
        then (frameStart b.length ++ b).drop 9 else [] := rfl
    rw [hu,ht,hd,if_pos rfl]
  · rw [if_neg hs,if_pos h]
    rfl

theorem stored_lossless : Lossless storedDecompressor storedCompressor := by
  intro k b _ hb _
  have hu : (unstore (storedFrame b)).length ≤ maxBlocksize := by
    rw [unstore_storedFrame hb]
    exact hb
  have hd : storedDecompressor.decompress (storedCompressor k b).bytes
      (storedCompressor k b).zsize = ⟨unstore (storedFrame b),hu⟩ := dif_pos hu
  rw [Restores,hd]
  exact unstore_storedFrame hb

theorem stored_neverFails : NeverFails storedCompressor := by
  intro k b hp hb h
  have hz : (storedFrame b).length = 0 := h
  have hu := unstore_storedFrame hb
  rw [List.eq_nil_of_length_eq_zero hz] at hu
  rw [← hu] at hp
  exact absurd hp (by decide)

end QData
