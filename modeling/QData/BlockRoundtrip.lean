import QData.BlockStream
/-! What a block writer was given, a block reader gets back: call by call for the
sequences the object codec makes, and for a payload of any length exactly as far as the
reader's counter reaches. -/
set_option autoImplicit false

namespace QData
open Words Requests

/-- The calls of the stream writer come in groups: a header is one pushed byte with a few
contiguous bytes behind it, everything else is data. -/
inductive WriteGroup where
  | header : UInt8 → List Bytes → WriteGroup
  | data : Bytes → WriteGroup
  deriving DecidableEq, Repr

def WriteGroup.Admitted : WriteGroup → Prop
  | .header _ tail => tail.flatten.length ≤ 13
  | .data bs => bs.length ≤ maxRCompatibleStringLength

def WriteGroup.calls : WriteGroup → List PushOp
  | .header b tail => .pod [b] :: tail.map .podContiguous
  | .data bs => [.data bs]

def readCalls : List GetOp → Reader (List Bytes)
  | [] => pure []
  | op :: ops => do
      let bs ← Prog.request op
      let rest ← readCalls ops
      pure (bs :: rest)

/-- What makes a call of the writer readable, given the block it is made on. -/
def ReadsBack (block : Bytes) : PushOp → Prop
  | .pod bs => bs ≠ []
  | .podContiguous _ => block ≠ []
  | .data bs => block.length ≤ maxBlocksize ∧ Countable block bs.length

def Readable : Bytes → List PushOp → Prop
  | _, [] => True
  | block, op :: ops => ReadsBack block op ∧ Readable (cutCall block op).2 ops

theorem ReadsBack.follows {block : Bytes} {op : PushOp} {ops : List PushOp}
    {c : Cursor Feed} (hr : ReadsBack block op)
    (h : Positioned block (blocksOf block (op :: ops)) c) : Follows block op ops c := by
  cases op with
  | pod bs => exact h.pod hr
  | podContiguous bs => exact h.podContiguous hr
  | data bs => exact h.data hr.1 hr.2

/-- A run of matching calls gets back what was pushed and ends at the writer's block. -/
theorem readCalls_follows {block : Bytes} {ops : List PushOp} {c : Cursor Feed}
    (hr : Readable block ops) (h : Positioned block (blocksOf block ops) c) :
    ∃ c', (readCalls (ops.map GetOp.matching)).run (cursor feedSource) c =
        .ok (ops.map PushOp.bytes,c') ∧
      Positioned (cutCalls block ops).2 (lastBlock (cutCalls block ops).2) c' := by
  induction ops generalizing block c with
  | nil => exact ⟨c,rfl,h⟩
  | cons op ops ih =>
    obtain ⟨c₁,h₁,hp₁⟩ := hr.1.follows h
    obtain ⟨c',h',hp'⟩ := ih hr.2 hp₁
    refine ⟨c',?_,hp'⟩
    rw [List.map_cons,readCalls,run_bind_ok (by rw [run_request]; exact h₁),run_bind_ok h']
    rfl

theorem Positioned.finished {block : Bytes} {c : Cursor Feed}
    (h : Positioned block (lastBlock block) c) : c.pending = [] ∧ c.source.contents = [] := by
  rw [lastBlock] at h
  by_cases hb : block.length > 0
  · rw [if_pos hb] at h
    rcases h with h | ⟨rfl,_⟩
    · simpa using h
    · cases hb
  · rw [if_neg hb] at h
    rcases h with h | ⟨_,hp,hc⟩
    · cases h
    · exact ⟨hp,hc⟩

theorem cutCall_pod_room (block : Bytes) (b : UInt8) :
    (cutCall block (.pod [b])).2 ≠ [] ∧
      (cutCall block (.pod [b])).2.length ≤ minBlocksize+1 := by
  rw [cutCall]
  by_cases hm : block.length > minBlocksize
  · rw [if_pos hm]
    exact ⟨by simp,by simp⟩
  · rw [if_neg hm]
    exact ⟨by simp,by simp; omega⟩

theorem contiguous_inBounds {tail : List Bytes} {block : Bytes} {ops : List PushOp}
    (hl : block.length+tail.flatten.length ≤ maxBlocksize)
    (h : InBounds (block ++ tail.flatten) ops) :
    InBounds block (tail.map .podContiguous ++ ops) := by
  induction tail generalizing block with
  | nil => simpa using h
  | cons t tail ih =>
    simp only [List.flatten_cons,List.length_append] at hl
    refine ⟨by simp only [cutCall,List.length_append]; omega,?_⟩
    exact ih (by simp only [cutCall,List.length_append]; omega) (by simpa [cutCall] using h)

theorem contiguous_readable {tail : List Bytes} {block : Bytes} {ops : List PushOp}
    (hb : block ≠ []) (h : Readable (block ++ tail.flatten) ops) :
    Readable block (tail.map .podContiguous ++ ops) := by
  induction tail generalizing block with
  | nil => simpa using h
  | cons t tail ih => exact ⟨hb,ih (by simp [cutCall,hb]) (by simpa [cutCall] using h)⟩

def WriteGroup.Fits : WriteGroup → Prop
  | .header _ tail => tail.flatten.length ≤ 13
  | .data _ => True

theorem WriteGroup.Fits.room {b : UInt8} {tail : List Bytes}
    (h : (WriteGroup.header b tail).Fits) (block : Bytes) :
    ((cutCall block (.pod [b])).2 ++ tail.flatten).length ≤ maxBlocksize := by
  have hpod := (cutCall_pod_room block b).2
  have hres : minBlocksize+14 ≤ maxBlocksize := by decide
  have h13 : tail.flatten.length ≤ 13 := h
  rw [List.length_append]
  omega

theorem groups_inBounds {groups : List WriteGroup} (hg : ∀ g ∈ groups, g.Fits) {block : Bytes} :
    InBounds block (groups.flatMap WriteGroup.calls) := by
  induction groups generalizing block with
  | nil => trivial
  | cons g groups ih =>
    have hrest := fun x hx => hg x (List.mem_cons_of_mem g hx)
    have hfit := hg g List.mem_cons_self
    rw [List.flatMap_cons]
    cases g with
    | header b tail =>
      have hroom := hfit.room block
      have hlen := hroom
      rw [List.length_append] at hlen
      exact ⟨by omega,contiguous_inBounds hlen (ih hrest)⟩
    | data bs => exact ⟨Nat.le_of_lt (cutCall_data_room block bs),ih hrest⟩

theorem WriteGroup.Admitted.fits {g : WriteGroup} (h : g.Admitted) : g.Fits := by
  cases g with
  | header b tail => exact h
  | data bs => trivial

theorem groups_readable {groups : List WriteGroup} {block : Bytes}
    (hb : block.length ≤ maxBlocksize) (hg : ∀ g ∈ groups, g.Admitted) :
    Readable block (groups.flatMap WriteGroup.calls) := by
  induction groups generalizing block with
  | nil => trivial
  | cons g groups ih =>
    have hrest := fun x hx => hg x (List.mem_cons_of_mem g hx)
    have hadm := hg g List.mem_cons_self
    rw [List.flatMap_cons]
    cases g with
    | header b tail =>
      exact ⟨by simp [ReadsBack],contiguous_readable (cutCall_pod_room block b).1
        (ih (hadm.fits.room block) hrest)⟩
    | data bs =>
      have hcount : Countable block bs.length := by
        have hs : bs.length ≤ maxRCompatibleStringLength := hadm
        simp only [maxRCompatibleStringLength] at hs
        rw [Countable]
        omega
      exact ⟨⟨hb,hcount⟩,ih (Nat.le_of_lt (cutCall_data_room block bs)) hrest⟩

theorem readFeed_start (f : Feed) : Positioned [] f.contents (Cursor.start f) :=
  .inr ⟨rfl,rfl,rfl⟩

def EmittedRest (cp : Compressor) (k : Nat) (blocks : List Bytes) (s : Bytes) : Prop :=
  ∃ j, s = emitBlocks cp (k+j) (blocks.drop j)

theorem EmittedRest.fetch {dp : Decompressor} {cp : Compressor} {k : Nat}
    {blocks : List Bytes} (s : Bytes) (b : Block) (s' : Bytes)
    (h : EmittedRest cp k blocks s) (hf : (streamSource dp).fetch s = .ok (b,s')) :
    EmittedRest cp k blocks s' := by
  obtain ⟨j,rfl⟩ := h
  cases hd : blocks.drop j with
  | nil =>
    rw [hd] at hf
    cases hf
  | cons x xs =>
    rw [hd] at hf
    simp only [emitBlocks,streamSource,decompressNext,readZblock_emit] at hf
    split at hf
    · cases hf
    · cases hf
      refine ⟨j+1,?_⟩
      have hx : blocks.drop (j+1) = xs := by rw [← List.drop_drop,hd]; rfl
      rw [hx,Nat.add_assoc]

theorem EmittedRest.empty {dp : Decompressor} {cp : Compressor} {k : Nat}
    {blocks : List Bytes} {s : Bytes} (hs : BlockSizes blocks)
    (hr : ∀ i, (h : i < blocks.length) → Restores dp cp (k+i) blocks[i])
    (h : EmittedRest cp k blocks s) (hc : ((streamSource dp).feed s).contents = []) :
    s = [] := by
  obtain ⟨j,rfl⟩ := h
  cases hd : blocks.drop j with
  | nil => rfl
  | cons x xs =>
    have hj : j < blocks.length := by
      by_contra hj
      rw [List.drop_eq_nil_of_le (by omega)] at hd
      cases hd
    have hx : blocks[j] = x := by
      have h := List.drop_eq_getElem_cons hj
      rw [hd] at h
      exact (List.cons.inj h).1.symm
    have hrx : Restores dp cp (k+j) x := by rw [← hx]; exact hr j hj
    have hne : x ≠ [] := by rw [← hx]; exact hs.ne_nil _ (List.getElem_mem hj)
    rw [hd,emitBlocks,feed_emit hne hrx] at hc
    cases hc

/-- Block writer and block reader in lockstep: every group comes back as it was pushed,
and the last call leaves neither data in the block nor blocks in the stream. -/
theorem groups_roundtrip {dp : Decompressor} {cp : Compressor} (hl : Lossless dp cp)
    (hf : NeverFails cp) (xxh : Bytes → UInt64) {groups : List WriteGroup}
    (hg : ∀ g ∈ groups, g.Admitted) :
    ∃ st, (readCalls ((groups.flatMap WriteGroup.calls).map GetOp.matching)).run
          (blockCompressReader (streamSource dp))
          (.start ((({} : BlockWriter).pushAll cp (groups.flatMap WriteGroup.calls)).finish
            cp xxh).1.out) =
        .ok ((groups.flatMap WriteGroup.calls).map PushOp.bytes,st) ∧
      st.source = [] ∧ st.dataOffset = st.currentBlocksize := by
  generalize hops : groups.flatMap WriteGroup.calls = ops
  have hread : Readable [] (groups.flatMap WriteGroup.calls) :=
    groups_readable (Nat.zero_le _) hg
  have hbounds : InBounds [] (groups.flatMap WriteGroup.calls) :=
    groups_inBounds fun g hm => (hg g hm).fits
  rw [hops] at hread hbounds
  have hsizes := blocksOf_sizes (Nat.zero_le _) hbounds
  have hrest := lossless_restores hl hf hsizes 0
  have hout : (({} : BlockWriter).pushAll cp ops |>.finish cp xxh).1.out =
      emitBlocks cp 0 (blocksOf [] ops) := by
    rw [BlockWriter.finish_eq]
    rfl
  rw [hout]
  have hpos := readFeed_start ((streamSource dp).feed (emitBlocks cp 0 (blocksOf [] ops)))
  rw [feed_emitted hsizes hrest] at hpos
  obtain ⟨c',hrun,hend⟩ := readCalls_follows hread hpos
  obtain ⟨hpend,hcont⟩ := hend.finished
  have h₁ := run_cursor (blockCompressReader_cursor (streamSource dp))
    (readCalls (ops.map GetOp.matching)) (emitBlocks cp 0 (blocksOf [] ops))
  have h₂ := run_unroll (streamSource dp) (readCalls (ops.map GetOp.matching))
    (emitBlocks cp 0 (blocksOf [] ops))
  rw [readFeed,hrun] at h₂
  obtain ⟨c,hc,hcu⟩ := h₂.ok_right
  subst hcu
  rw [hc] at h₁
  obtain ⟨st,hst,hshow⟩ := h₁.ok_right
  have hsource : EmittedRest cp 0 (blocksOf [] ops) c.source :=
    run_keeps (I := fun c => EmittedRest cp 0 (blocksOf [] ops) c.source)
      (fun op c bs c' hc h => cursor_keeps (fun s b s' => EmittedRest.fetch s b s') op c bs c' hc h)
      _ ⟨0,rfl⟩ hc
  refine ⟨st,hst,?_,?_⟩
  · rw [hshow.source]
    exact hsource.empty hsizes hrest hcont
  · have hlen := hshow.length
    have hoff := hshow.offset
    rw [show c.pending = [] from hpend,List.length_nil] at hlen
    omega

theorem groups_roundtrip_short :
    ∃ st, (readCalls [.pod 1,.podContiguous 2,.data 3]).run
          (blockCompressReader (streamSource storedDecompressor))
          (.start ((({} : BlockWriter).pushAll storedCompressor
            [.pod [0x0A],.podContiguous [0,1],.data [7,8,9]]).finish storedCompressor
              fun _ => 5).1.out) =
        .ok ([[0x0A],[0,1],[7,8,9]],st) ∧
      st.source = [] ∧ st.dataOffset = st.currentBlocksize :=
  @groups_roundtrip _ _ stored_lossless stored_neverFails (fun _ => 5)
    [.header 0x0A [[0,1]],.data [7,8,9]]
    (by simp [WriteGroup.Admitted,maxRCompatibleStringLength])

/-- A block reader whose unread data, behind what the writer holds in `block`, starts the
blocks in its source: it has read exactly what was pushed. -/
def StandsAt {σ : Type} (S : BlockSource σ) (block : Bytes) (blocks : List Bytes)
    (st : BlockReader σ) : Prop :=
  ∃ c, Shows st c ∧ Positioned block blocks (c.unroll S)

def GetsPayload {σ : Type} (S : BlockSource σ) (h : Handler GetOp Bytes ReadError (BlockReader σ))
    (block payload : Bytes) (later : List PushOp) (st : BlockReader σ) : Prop :=
  ∃ st', h (.data payload.length) st = .ok (payload,st') ∧
    StandsAt S (cutCall block (.data payload)).2
      (blocksOf (cutCall block (.data payload)).2 later) st'

/-- A payload is read exactly when the 32-bit counter reaches its length. -/
theorem getsPayload_iff {σ : Type} {S : BlockSource σ}
    {h : Handler GetOp Bytes ReadError (BlockReader σ)}
    (hh : ∀ op st c, Shows st c → Related Shows Eq (h op st) (cursor S op c))
    {block payload : Bytes} (hb : block.length ≤ maxBlocksize) {later : List PushOp}
    {st : BlockReader σ}
    (hst : StandsAt S block (blocksOf block (.data payload :: later)) st) :
    GetsPayload S h block payload later st ↔ Countable block payload.length := by
  obtain ⟨c,hshow,hpos⟩ := hst
  have h₁ := hh (.data payload.length) st c hshow
  have h₂ := cursor_unrolled (S := S) (.data payload.length) c _ rfl
  constructor
  · rintro ⟨st',hok,_⟩
    by_contra hwide
    obtain ⟨e,he⟩ := hpos.data_wide hb hwide
    rw [hok] at h₁
    obtain ⟨c',hc',_⟩ := h₁.ok_left
    rw [hc',he] at h₂
    cases h₂
  · intro hcount
    obtain ⟨c',hc',hpos'⟩ := hpos.data hb hcount
    rw [show cursor feedSource (.data payload.length) (c.unroll S) = .ok (payload,c') from hc'] at h₂
    obtain ⟨c₁,hc₁,rfl⟩ := h₂.ok_right
    rw [hc₁] at h₁
    obtain ⟨st',hst',hshow'⟩ := h₁.ok_right
    exact ⟨st',hst',c₁,hshow',hpos'⟩

/-- Payloads of every element count and width, behind every offset: both block readers get
one back exactly when its size in bytes is below 2^32 plus the room that was left in the
block it starts in. -/
theorem payload_roundtrip_iff {dp : Decompressor} {cp : Compressor} (hl : Lossless dp cp)
    (hf : NeverFails cp) {n width : Nat} (w : BlockWriter) (hb : w.block.length ≤ maxBlocksize)
    {payload : Bytes} (hp : payload.length = n*width) {later : List PushOp}
    (hlater : InBounds (w.pushData cp payload).block later) :
    (∃ emitted,
      ((w.pushData cp payload).pushAll cp later |>.flush cp).out = w.out ++ emitted ∧
        ((streamSource dp).feed emitted).contents =
          blocksOf w.block (.data payload :: later)) ∧
      (∀ st, StandsAt (streamSource dp) w.block (blocksOf w.block (.data payload :: later)) st →
        (GetsPayload (streamSource dp) (blockCompressReader (streamSource dp)) w.block
            payload later st ↔
          n*width < 2 ^ 32+(maxBlocksize - w.block.length) % maxBlocksize)) ∧
      (∀ st, StandsAt feedSource w.block (blocksOf w.block (.data payload :: later)) st →
        (GetsPayload feedSource (blockCompressReaderMT feedSource) w.block payload later st ↔
          n*width < 2 ^ 32+(maxBlocksize - w.block.length) % maxBlocksize)) := by
  rw [← hp]
  have hlt := cutCall_data_room w.block payload
  rw [BlockWriter.pushData_eq,BlockWriter.sent_block] at hlater
  have hsizes : BlockSizes (blocksOf w.block (.data payload :: later)) :=
    blocksOf_sizes hb ⟨Nat.le_of_lt hlt,hlater⟩
  refine ⟨⟨emitBlocks cp w.calls (blocksOf w.block (.data payload :: later)),?_,?_⟩,
    fun st hst => getsPayload_iff (blockCompressReader_cursor _) hb hst,
    fun st hst => getsPayload_iff (blockCompressReaderMT_cursor _) hb hst⟩
  · rw [BlockWriter.flush_eq,BlockWriter.pushAll_eq,BlockWriter.pushData_eq,
      BlockWriter.sent_block,BlockWriter.sent_sent,BlockWriter.sent_sent,BlockWriter.sent_block,
      blocksOf_cons]
    simp [BlockWriter.sent,blocksOf]
  · exact feed_emitted hsizes (lossless_restores hl hf hsizes w.calls)

/-- The doubles of a vector behind its header, over three blocks: both readers get them. -/
theorem payload_roundtrip_blocks :
    ∃ (w : BlockWriter) (payload : Bytes),
      w.block = [numericHeader32,0xE0,0x93,0x04,0x00] ∧ payload.length = 300000*8 ∧
      (∃ st, StandsAt (streamSource storedDecompressor) w.block
          (blocksOf w.block [.data payload]) st ∧
        GetsPayload (streamSource storedDecompressor)
          (blockCompressReader (streamSource storedDecompressor)) w.block payload [] st) ∧
      (∃ st, StandsAt feedSource w.block (blocksOf w.block [.data payload]) st ∧
        GetsPayload feedSource (blockCompressReaderMT feedSource) w.block payload [] st) := by
  obtain ⟨header,hheader⟩ : ∃ header : Bytes,
    header = [numericHeader32,0xE0,0x93,0x04,0x00] := ⟨_,rfl⟩
  obtain ⟨payload,hp⟩ : ∃ payload : Bytes, payload.length = 300000*8 :=
    ⟨(List.replicate 300000 (doubleBytes 1)).flatten,by
      rw [List.length_flatten,List.map_replicate,List.sum_replicate_nat,length_doubleBytes]⟩
  have hlen : header.length = 5 := by rw [hheader]; rfl
  have hb : header.length ≤ maxBlocksize := by rw [hlen]; decide
  have hne : header ≠ [] := List.ne_nil_of_length_pos (by omega)
  obtain ⟨t,rest,hblocks⟩ := blocksOf_head hne [.data payload]
  have hsizes : BlockSizes (blocksOf header [.data payload]) :=
    blocksOf_sizes hb ⟨Nat.le_of_lt (cutCall_data_room header payload),trivial⟩
  rw [hblocks] at hsizes
  have hrest : BlockSizes rest := fun b hb => hsizes b (List.mem_cons_of_mem _ hb)
  have hroom : t.length ≤ maxBlocksize := by
    have hfirst := (hsizes _ List.mem_cons_self).2
    rw [List.length_append] at hfirst
    omega
  have hcontents := feed_emitted hrest
    (lossless_restores stored_lossless stored_neverFails hrest 1)
  -- the rest of the first block is ahead
  have hstand : ∀ {σ : Type} {S : BlockSource σ} (s : σ), (S.feed s).contents = rest →
      StandsAt S header (blocksOf header [.data payload]) ⟨s,t,t.length,0⟩ := fun s hs =>
    ⟨⟨t,s⟩,Shows.fresh ⟨t,hroom⟩ s,.inl (by rw [hblocks,Cursor.unroll,hs])⟩
  have hboth := payload_roundtrip_iff stored_lossless stored_neverFails
    ({ block := header } : BlockWriter) hb hp (show InBounds _ [] from trivial)
  have hcount : 300000*8 < 2 ^ 32+(maxBlocksize - header.length) % maxBlocksize := by omega
  have hst := hstand _ hcontents
  have hmt := hstand (S := feedSource) _ ((congrArg Feed.contents (feedSource_feed _)).trans hcontents)
  exact ⟨{ block := header },payload,hheader,hp,⟨_,hst,(hboth.2.1 _ hst).mpr hcount⟩,
    ⟨_,hmt,(hboth.2.2 _ hmt).mpr hcount⟩⟩

/-- 2^29 doubles from the start of a block: the writer's stream holds them, and neither
reader, standing at its start, can read them. -/
theorem payload_of_four_gib :
    ∃ payload : Bytes, payload.length = 536870912*8 ∧
      ((streamSource storedDecompressor).feed
        ((({} : BlockWriter).pushData storedCompressor payload).flush storedCompressor).out).contents =
          blocksOf [] [.data payload] ∧
      (∃ st, StandsAt (streamSource storedDecompressor) [] (blocksOf [] [.data payload]) st ∧
        ¬ GetsPayload (streamSource storedDecompressor)
          (blockCompressReader (streamSource storedDecompressor)) [] payload [] st) ∧
      (∃ st, StandsAt feedSource [] (blocksOf [] [.data payload]) st ∧
        ¬ GetsPayload feedSource (blockCompressReaderMT feedSource) [] payload [] st) := by
  obtain ⟨payload,hp⟩ : ∃ payload : Bytes, payload.length = 536870912*8 :=
    ⟨List.replicate _ 0,List.length_replicate⟩
  have hlt := cutCall_data_room [] payload
  have hsizes : BlockSizes (blocksOf [] [.data payload]) :=
    blocksOf_sizes (Nat.zero_le _) ⟨Nat.le_of_lt hlt,trivial⟩
  have hwide : ¬ Countable [] payload.length := by
    rw [Countable,hp]
    simp [maxBlocksize]
  have hcontents := feed_emitted hsizes
    (lossless_restores stored_lossless stored_neverFails hsizes 0)
  have hout : ((({} : BlockWriter).pushData storedCompressor payload).flush storedCompressor).out =
      emitBlocks storedCompressor 0 (blocksOf [] [.data payload]) := by
    rw [BlockWriter.flush_eq,BlockWriter.pushData_eq,BlockWriter.sent_block,
      BlockWriter.sent_sent]
    simp [BlockWriter.sent,blocksOf,cutCalls]
  have hstand : ∀ {σ : Type} {S : BlockSource σ} (s : σ),
      (S.feed s).contents = blocksOf [] [.data payload] →
      StandsAt S [] (blocksOf [] [.data payload]) (.start s) := fun s hs =>
    ⟨Cursor.start s,Shows.start s,.inr ⟨rfl,rfl,hs⟩⟩
  refine ⟨payload,hp,by rw [hout,hcontents],⟨_,hstand _ hcontents,?_⟩,?_⟩
  · rw [getsPayload_iff (blockCompressReader_cursor _) (Nat.zero_le _) (hstand _ hcontents)]
    exact hwide
  · have hmt := hstand (S := feedSource) ((streamSource storedDecompressor).feed
      (emitBlocks storedCompressor 0 (blocksOf [] [.data payload])))
      (by rw [feedSource_feed]; exact hcontents)
    exact ⟨_,hmt,by
      rw [getsPayload_iff (blockCompressReaderMT_cursor _) (Nat.zero_le _) hmt]
      exact hwide⟩

end QData
