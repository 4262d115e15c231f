import QData.Truncation
/-! The checksum is computed three times: over what the block writer sends, over what lies
behind the header, and over what the block reader takes. -/
set_option autoImplicit false

namespace QData
open Words Requests

/-- `IfStreamReader` on a file, or `memory_reader` on a buffer. -/
structure InStream where
  bytes : Bytes
  position : Nat
  deriving DecidableEq, Repr

namespace InStream

def remaining (r : InStream) : Bytes := r.bytes.drop r.position

def read (count : Nat) (r : InStream) : Bytes × InStream :=
  (r.remaining.take count,{ r with position := r.position+(r.remaining.take count).length })

def tellg (r : InStream) : Nat := r.position

def seekg (pos : Nat) (r : InStream) : InStream := { r with position := min pos r.bytes.length }

theorem remaining_read (count : Nat) (r : InStream) :
    (r.read count).2.remaining = r.remaining.drop count := by
  simp only [read,remaining,← List.drop_drop,List.length_take]
  by_cases h : count ≤ (r.bytes.drop r.position).length
  · rw [Nat.min_eq_left h]
  · rw [Nat.min_eq_right (by omega),List.drop_length,List.drop_of_length_le (by omega)]

end InStream

def hashToEnd (fed : Bytes) (r : InStream) : Bytes × InStream :=
  if _h : (r.read maxZblocksize).1 = [] then (fed,(r.read maxZblocksize).2)
  else hashToEnd (fed ++ (r.read maxZblocksize).1) (r.read maxZblocksize).2
termination_by r.remaining.length
decreasing_by
  have hz : 0 < maxZblocksize := by decide
  simp only [InStream.read,List.take_eq_nil_iff,not_or] at _h
  have hl := List.length_pos_iff.mpr _h.2
  simp only [InStream.remaining_read,List.length_drop]
  omega

def readQxHashAt (xxh : Bytes → UInt64) (reader : InStream) : UInt64 × InStream :=
  let currentPosition := reader.tellg
  let (fed,reader) := hashToEnd [] reader
  (digest xxh fed,reader.seekg currentPosition)

theorem hashToEnd_eq (fed : Bytes) (r : InStream) :
    (hashToEnd fed r).1 = hashRemaining fed r.remaining ∧ (hashToEnd fed r).2.bytes = r.bytes := by
  induction fed, r using hashToEnd.induct with
  | case1 fed r h =>
    have hnone : r.remaining.take maxZblocksize = [] := h
    rw [hashToEnd,dif_pos h,hashRemaining,dif_pos hnone]
    exact ⟨rfl,rfl⟩
  | case2 fed r h ih =>
    have hsome : r.remaining.take maxZblocksize ≠ [] := h
    rw [hashToEnd,dif_neg h,hashRemaining,dif_neg hsome]
    rw [InStream.remaining_read] at ih
    exact ih

theorem readQxHashAt_eq (xxh : Bytes → UInt64) {r : InStream} (h : r.position ≤ r.bytes.length) :
    readQxHashAt xxh r = (readQxHash xxh r.remaining,r) := by
  obtain ⟨hfed,hbytes⟩ := hashToEnd_eq [] r
  simp only [readQxHashAt,hfed,readQxHash,InStream.seekg,InStream.tellg,hbytes,
    Nat.min_eq_left h]

def readQdataObjectStart (xxh : Bytes → UInt64) (validateChecksum : Bool) (stream : InStream) :
    ReadResult (QdataHeader × InStream) :=
  match readQdataHeader stream.remaining with
  | .error e => .error e
  | .ok (header,_) =>
      let stream := (stream.read 24).2
      if validateChecksum then
        if header.hash = 0 then
          .error (thrown "qdata input does not contain a stored checksum")
        else
          let (computedHash,stream) := readQxHashAt xxh stream
          if computedHash ≠ header.hash then .error (thrown "qdata checksum mismatch")
          else .ok (header,stream)
      else .ok (header,stream)

/-- `read_qdata_object` as it moves over its stream. -/
def readQdataObjectAt (z : Zstd) (xxh : Bytes → UInt64) (validateChecksum : Bool)
    (maxDepth : Nat) (stream : InStream) : ReadResult Object :=
  match readQdataObjectStart xxh validateChecksum stream with
  | .error e => .error e
  | .ok (header,stream) =>
      readSingleThread (z.decompressor header.shuffle) stream.remaining maxDepth

theorem InStream.position_read_le {r : InStream} (h : r.position ≤ r.bytes.length) (count : Nat) :
    (r.read count).2.position ≤ (r.read count).2.bytes.length := by
  simp only [InStream.read,InStream.remaining,List.length_take,List.length_drop]
  omega

theorem readQdataObjectAt_eq (z : Zstd) (xxh : Bytes → UInt64) (validateChecksum : Bool)
    (maxDepth : Nat) (bytes : Bytes) :
    readQdataObjectAt z xxh validateChecksum maxDepth ⟨bytes,0⟩ =
      readQdataObject z xxh validateChecksum maxDepth bytes := by
  have hstart : (InStream.mk bytes 0).remaining = bytes := rfl
  have hposition := InStream.position_read_le (r := ⟨bytes,0⟩) (Nat.zero_le _) 24
  rw [readQdataObjectAt,readQdataObjectStart,readQdataObject,hstart]
  cases hheader : readQdataHeader bytes with
  | error e => rfl
  | ok x =>
    obtain ⟨header,rest⟩ := x
    have hbehind : ((InStream.mk bytes 0).read 24).2.remaining = rest := by
      rw [InStream.remaining_read,readQdataHeader_rest hheader,hstart]
    simp only [readQxHashAt_eq xxh hposition,hbehind]
    cases validateChecksum with
    | false => simp [hbehind]
    | true =>
      simp only [if_true,true_and]
      by_cases hz : header.hash = 0
      · rw [if_pos hz,if_pos hz]
      · rw [if_neg hz,if_neg hz]
        by_cases hne : readQxHash xxh rest ≠ header.hash
        · rw [if_pos hne,if_pos hne]
        · rw [if_neg hne,if_neg hne]
          simp only [hbehind]

/-- The stream of a `BlockCompressReader`, and what its hasher was fed. -/
structure HashedStream where
  rest : Bytes
  hashed : Bytes

/-- `decompress_block` and `decompress_direct` with their calls on the hasher. What it was
fed before an exception is lost with the reader. -/
def decompressHashed (dp : Decompressor) (s : HashedStream) :
    Except (Halt ReadError) (Block × HashedStream) :=
  match readZblock s.rest with
  | .noSize => .error (cleanupHalt "Unexpected end of file while reading next block size")
  | .oversized => .error (cleanupHalt "Compressed block size exceeds internal maximum")
  | .truncated => .error (cleanupHalt "Unexpected end of file while reading next block")
  | .zblock zsize zbytes rest =>
      if (dp.decompress zbytes zsize).1 = [] then .error (cleanupHalt "Decompression error")
      else .ok (dp.decompress zbytes zsize,⟨rest,s.hashed ++ toBytes 4 zsize ++ zbytes⟩)

theorem decompressHashed_eq (dp : Decompressor) (s : HashedStream) (t : Bytes)
    (h : s.rest = t) :
    Related (fun s t => s.rest = t) Eq (decompressHashed dp s) (decompressNext dp t) := by
  subst h
  unfold decompressHashed decompressNext
  cases readZblock s.rest with
  | noSize => exact rfl
  | oversized => exact rfl
  | truncated => exact rfl
  | zblock zsize zbytes rest =>
    simp only
    by_cases hd : (dp.decompress zbytes zsize).1 = []
    · rw [if_pos hd,if_pos hd]
      exact rfl
    · rw [if_neg hd,if_neg hd]
      exact ⟨rfl,rfl⟩

def hashedSource (dp : Decompressor) : BlockSource HashedStream where
  fetch := decompressHashed dp
  budget := fun s => s.rest.length
  fetch_budget := by
    intro s b s' h
    have hrelated := decompressHashed_eq dp s s.rest rfl
    rw [h] at hrelated
    obtain ⟨t,ht,hrest⟩ := hrelated.ok_left
    rw [hrest]
    exact decompressNext_budget ht

def BlockReader.getHashDigest (xxh : Bytes → UInt64) (st : BlockReader HashedStream) : UInt64 :=
  digest xxh st.source.hashed

theorem readZblock_split {stream zbytes rest : Bytes} {zsize : Nat}
    (h : readZblock stream = .zblock zsize zbytes rest) :
    stream = toBytes 4 zsize ++ zbytes ++ rest := by
  unfold readZblock at h
  split at h
  · cases h
  · next hlong =>
    simp only at h
    split at h
    · split at h
      · cases h
      · simp only [Zblock.zblock.injEq] at h
        obtain ⟨rfl,rfl,rfl⟩ := h
        have hword : toBytes 4 (toNat (stream.take 4)) = stream.take 4 := by
          have hbytes := toBytes_toNat (stream.take 4)
          rwa [List.length_take,Nat.min_eq_left (by omega)] at hbytes
        rw [hword,List.append_assoc,List.take_append_drop,List.take_append_drop]
    · cases h

theorem decompressHashed_keeps {dp : Decompressor} {start : Bytes} (s : HashedStream) (b : Block)
    (s' : HashedStream) (h : s.hashed ++ s.rest = start)
    (hf : (hashedSource dp).fetch s = .ok (b,s')) : s'.hashed ++ s'.rest = start := by
  simp only [hashedSource,decompressHashed] at hf
  split at hf
  · cases hf
  · cases hf
  · cases hf
  · next hz =>
    split at hf
    · cases hf
    · cases hf
      rw [← h,readZblock_split hz]
      simp only [List.append_assoc]

section
variable {dp : Decompressor} {α : Type} {p : Reader α} {stream : Bytes} {a : α}
  {st : BlockReader HashedStream}

theorem hashed_run (h : p.run (blockCompressReader (hashedSource dp)) (.start ⟨stream,[]⟩) =
    .ok (a,st)) : st.source.hashed ++ st.source.rest = stream := by
  have hrun := run_cursor (blockCompressReader_cursor (hashedSource dp)) p ⟨stream,[]⟩
  rw [h] at hrun
  obtain ⟨c,hc,hshow⟩ := hrun.ok_left
  rw [hshow.source]
  exact run_keeps (I := fun c => c.source.hashed ++ c.source.rest = stream)
    (fun op c bs c' hi hr => cursor_keeps
      (I := fun s : HashedStream => s.hashed ++ s.rest = stream)
      decompressHashed_keeps op c bs c' hi hr)
    p (by simp [Cursor.start]) hc

/-- The hasher is an onlooker: the plain reader does the same. -/
theorem hashed_plain (h : p.run (blockCompressReader (hashedSource dp)) (.start ⟨stream,[]⟩) =
    .ok (a,st)) :
    ∃ c, p.run (cursor (streamSource dp)) (Cursor.start stream) = .ok (a,c) ∧
      c.source = st.source.rest := by
  have hrun := run_cursor (blockCompressReader_cursor (hashedSource dp)) p ⟨stream,[]⟩
  rw [h] at hrun
  obtain ⟨c,hc,hshow⟩ := hrun.ok_left
  have hstep : ∀ op c d, Alongside (fun s t => HashedStream.rest s = t) c d →
      Related (Alongside fun s t => HashedStream.rest s = t) Eq (cursor (hashedSource dp) op c)
        (cursor (streamSource dp) op d) := fun op c d hcd =>
    (cursor_alongside (B := fun _ => False) rfl
      (fun s t hst => .inr (decompressHashed_eq dp s t hst)) op c d hcd).resolve_left
        fun ⟨_,_,hb⟩ => hb
  have halong := run_related (fun _ => rfl) hstep p
    (s := Cursor.start ⟨stream,[]⟩) (t := Cursor.start stream) ⟨rfl,rfl⟩
  rw [hc] at halong
  obtain ⟨d,hd,_,hsource⟩ := halong.ok_left
  exact ⟨d,hd,by rw [← hsource,hshow.source]⟩

end

/-- The file or buffer after a normal return of `write_qdata_object` and `write_qx_hash`. -/
def savedBytes (shuffle : Bool) (out : Bytes) (hash : UInt64) : Bytes :=
  (writeQxHash hash ((writeQdataHeader shuffle {}).write out)).bytes

def storedHash (bytes : Bytes) : UInt64 :=
  UInt64.ofNat (toNat ((bytes.drop headerHashPosition).take 8))

theorem storedHash_stored (shuffle : Bool) (hash : UInt64) (out : Bytes) :
    storedHash (storedHeader shuffle hash ++ out) = hash := by
  have hdrop : (storedHeader shuffle hash ++ out).drop headerHashPosition =
      toBytes 8 hash.toNat ++ out := by
    cases shuffle <;> rfl
  rw [storedHash,hdrop,List.take_left' (length_toBytes 8 hash.toNat),
    toNat_toBytes (by simpa using hash.toNat_lt),UInt64.ofNat_toNat]

theorem digest_ne_zero (xxh : Bytes → UInt64) (fed : Bytes) : digest xxh fed ≠ 0 := by
  unfold digest
  split
  · decide
  · next h => exact h

theorem drop_stored (shuffle : Bool) (hash : UInt64) (out : Bytes) :
    (storedHeader shuffle hash ++ out).drop 24 = out :=
  List.drop_left' (length_storedHeader shuffle hash)

theorem feed_bytes_nil {dp : Decompressor} {s : Bytes}
    (h : ((streamSource dp).feed s).bytes = []) : ((streamSource dp).feed s).contents = [] := by
  cases hf : (streamSource dp).fetch s with
  | error e =>
    rw [BlockSource.feed_error hf]
    rfl
  | ok x =>
    obtain ⟨b,t⟩ := x
    obtain ⟨_,_,_,hb,_⟩ := decompressNext_ok hf
    rw [BlockSource.feed_ok hf] at h
    simp only [Feed.bytes,List.map_cons,List.flatten_cons,List.append_eq_nil_iff] at h
    exact absurd h.1 hb

section
variable {z : Zstd} {xxh : Bytes → UInt64} {compressLevel : Int} {shuffle : Bool}
  {maxDepth : Nat} {v : Value} {nthreads : Int} {out : Bytes} {hash : UInt64}

theorem Returns.read_to_end (h : Returns z xxh compressLevel shuffle maxDepth v nthreads out hash)
    (hz : z.Inverts) {d : Nat} {o : Object} {st : BlockReader HashedStream}
    (hr : (streamRead d).run (blockCompressReader (hashedSource (z.decompressor shuffle)))
      (.start ⟨out,[]⟩) = .ok (o,st)) : st.source.rest = [] := by
  obtain ⟨he,hout,_⟩ := h.stream
  obtain ⟨c,hc,hrest⟩ := hashed_plain hr
  have hs := blocksOf_sizes (Nat.zero_le _) (streamWrite_inBounds maxDepth v)
  have hl := hz.lossless shuffle compressLevel
  have hfeed := run_unroll (streamSource (z.decompressor shuffle)) (streamRead d) out
  rw [hc] at hfeed
  obtain ⟨_,hfeed,rfl⟩ := hfeed.ok_left
  have hchannel := readFeed_channel hfeed
  have hd : d ≠ 0 := by
    rintro rfl
    cases hchannel
  obtain ⟨j,hcontents,hall⟩ := feed_front hl hs 0 ((List.append_nil out).trans hout)
  have hbytes : ((streamSource (z.decompressor shuffle)).feed out).bytes =
      ((blocksOf [] (streamWrite maxDepth v).pushed).take j).flatten := by
    rw [Feed.bytes,← Feed.contents,hcontents]
  rw [hbytes] at hchannel
  have hj : (blocksOf [] (streamWrite maxDepth v).pushed).length ≤ j := by
    by_contra hj
    obtain ⟨e,hmissing⟩ := blocks_front he (Nat.lt_of_not_le hj) d
    rw [hchannel] at hmissing
    cases hmissing
  rw [List.take_of_length_le hj,blocksOf_flatten,List.nil_append] at hchannel
  have hwritten := streamRead_written he hd []
  rw [List.append_nil,hchannel] at hwritten
  have hused : c.pending ++ ((streamSource (z.decompressor shuffle)).feed c.source).bytes = [] := by
    split at hwritten
    · exact (Prod.mk.inj (Except.ok.inj hwritten)).2
    · cases hwritten
  have hrestores : ∀ i, (hi : i < (blocksOf [] (streamWrite maxDepth v).pushed).length) →
      Restores (z.decompressor shuffle) (z.compressor shuffle compressLevel) (0+i)
        (blocksOf [] (streamWrite maxDepth v).pushed)[i] := by
    intro i hi
    obtain ⟨hp,hm⟩ := hs _ (List.getElem_mem hi)
    exact hl _ _ hp hm ((hall hj).2 i _ (List.getElem?_eq_getElem hi))
  have hemitted : EmittedRest (z.compressor shuffle compressLevel) 0
      (blocksOf [] (streamWrite maxDepth v).pushed) c.source :=
    run_keeps (I := fun c => EmittedRest _ 0 _ c.source)
      (fun op c bs c' hi hr =>
        cursor_keeps (fun s b s' => EmittedRest.fetch s b s') op c bs c' hi hr)
      _ ⟨0,hout⟩ hc
  rw [← hrest]
  exact hemitted.empty hs hrestores (feed_bytes_nil (List.append_eq_nil_iff.mp hused).2)

/-- A reader that has come to the end of the blocks has hashed what the writer hashed. -/
theorem Returns.collects (h : Returns z xxh compressLevel shuffle maxDepth v nthreads out hash)
    {α : Type} {p : Reader α} {a : α} {st : BlockReader HashedStream}
    (hr : p.run (blockCompressReader (hashedSource (z.decompressor shuffle)))
      (.start ⟨out,[]⟩) = .ok (a,st)) (hrest : st.source.rest = []) :
    st.getHashDigest xxh = hash := by
  have hkept := hashed_run hr
  rw [hrest,List.append_nil] at hkept
  rw [BlockReader.getHashDigest,hkept,h.stream.2.2]

variable (shuffle) in
theorem readQxHashAt_stored (hhash : hash = digest xxh out) :
    readQxHashAt xxh ⟨storedHeader shuffle hash ++ out,24⟩ =
      (hash,⟨storedHeader shuffle hash ++ out,24⟩) := by
  rw [readQxHashAt_eq xxh (by simp),InStream.remaining,drop_stored,readQxHash_eq,← hhash]

variable (shuffle) in
theorem readQdataObjectStart_stored (hhash : hash = digest xxh out) (hne : hash ≠ 0)
    (validateChecksum : Bool) :
    readQdataObjectStart xxh validateChecksum ⟨storedHeader shuffle hash ++ out,0⟩ =
      .ok (⟨shuffle,hash⟩,⟨storedHeader shuffle hash ++ out,24⟩) := by
  have hread : ((InStream.mk (storedHeader shuffle hash ++ out) 0).read 24).2 =
      ⟨storedHeader shuffle hash ++ out,24⟩ := by
    simp [InStream.read,InStream.remaining]
  have hheader : readQdataHeader (InStream.mk (storedHeader shuffle hash ++ out) 0).remaining =
      .ok (⟨shuffle,hash⟩,out) := readQdataHeader_stored shuffle hash out
  rw [readQdataObjectStart,hheader]
  simp only [hread,readQxHashAt_stored shuffle hhash]
  cases validateChecksum <;> simp [hne]

/-- The hash that is stored, the one `read_qx_hash` recomputes and the one a reader has
collected at the end of the blocks are the same, so validation changes nothing. -/
theorem checksums_agree
    (h : Returns z xxh compressLevel shuffle maxDepth v nthreads out hash) :
    serializedBytes shuffle out hash = savedBytes shuffle out hash ∧
    storedHash (savedBytes shuffle out hash) = hash ∧ hash ≠ 0 ∧
    readQxHashAt xxh ⟨savedBytes shuffle out hash,24⟩ = (hash,⟨savedBytes shuffle out hash,24⟩) ∧
    (∀ {α : Type} (p : Reader α) a st,
      p.run (blockCompressReader (hashedSource (z.decompressor shuffle)))
        (.start ⟨(savedBytes shuffle out hash).drop 24,[]⟩) = .ok (a,st) →
      st.source.rest = [] → st.getHashDigest xxh = hash) ∧
    (z.Inverts → ∀ d o st,
      (streamRead d).run (blockCompressReader (hashedSource (z.decompressor shuffle)))
        (.start ⟨(savedBytes shuffle out hash).drop 24,[]⟩) = .ok (o,st) →
      st.getHashDigest xxh = hash) ∧
    (∀ validateChecksum,
      readQdataObjectStart xxh validateChecksum ⟨savedBytes shuffle out hash,0⟩ =
        .ok (⟨shuffle,hash⟩,⟨savedBytes shuffle out hash,24⟩)) ∧
    ∀ d, readQdataObject z xxh true d (savedBytes shuffle out hash) =
      readQdataObject z xxh false d (savedBytes shuffle out hash) := by
  have hbytes : savedBytes shuffle out hash = storedHeader shuffle hash ++ out :=
    writeQxHash_bytes shuffle out hash
  have hhash := h.stream.2.2
  have hne : hash ≠ 0 := by
    rw [hhash]
    exact digest_ne_zero xxh out
  rw [hbytes,drop_stored]
  refine ⟨serializedBytes_eq shuffle out hash,storedHash_stored shuffle hash out,hne,
    readQxHashAt_stored shuffle hhash,fun p a st => h.collects,
    fun hz d o st hr => h.collects hr (h.read_to_end hz hr),
    readQdataObjectStart_stored shuffle hhash hne,fun d => ?_⟩
  rw [← readQdataObjectAt_eq,← readQdataObjectAt_eq,readQdataObjectAt,readQdataObjectAt,
    readQdataObjectStart_stored shuffle hhash hne,readQdataObjectStart_stored shuffle hhash hne]

/-- A hash of zero is stored as one, here behind the header of a nil object. -/
theorem checksums_agree_zero :
    storedHash (savedBytes true (storedCompressor 0 [nilHeader]).emit 1) = 1 ∧
    ∀ d, readQdataObject storedZstd (fun _ => 0) true d
        (savedBytes true (storedCompressor 0 [nilHeader]).emit 1) =
      readQdataObject storedZstd (fun _ => 0) false d
        (savedBytes true (storedCompressor 0 [nilHeader]).emit 1) := by
  have h := @checksums_agree storedZstd (fun _ => 0) 3 true defaultQdataMaxNestingDepth .nil 1
    _ _ (.single (by decide) rfl)
  exact ⟨h.2.1,h.2.2.2.2.2.2.2⟩

end

end QData
