import QData.BlockCodec
import QData.Checksums
import QData.CompressionFailure
import QData.ReaderEquivalence
import QData.ReaderLimits
/-! From a value to a file and back: what every reader makes of what any writer left,
whatever the numbers of threads, the schedules and the settings on both sides. -/
set_option autoImplicit false

namespace QData
open Words Requests

def ReaderPhase.object {α : Type} : ReaderPhase α → Option α
  | .returned a => some a
  | _ => none

theorem ReaderPhase.object_eq_some {α : Type} {phase : ReaderPhase α} {a : α} :
    phase.object = some a ↔ phase = .returned a := by
  cases phase with
  | returned b => simp [ReaderPhase.object]
  | _ => simp [ReaderPhase.object]

section
variable (z : Zstd) (xxh : Bytes → UInt64) (resets validateChecksum : Bool) (maxDepth : Nat)

/-- An end of `read_qdata_object`: the object it returned, or an exception. With more than
one thread the schedule is open. -/
inductive ReadsTo (nthreads : Int) (bytes : Bytes) : Option Object → Prop
  | rejected {e : Halt ReadError}
      (start : readQdataObjectStart xxh validateChecksum ⟨bytes,0⟩ = .error e) :
      ReadsTo nthreads bytes none
  | single {header : QdataHeader} {stream : InStream} (one : nthreads ≤ 1)
      (start : readQdataObjectStart xxh validateChecksum ⟨bytes,0⟩ = .ok (header,stream)) :
      ReadsTo nthreads bytes
        (readSingleThread (z.decompressor header.shuffle) stream.remaining maxDepth).toOption
  | multi {header : QdataHeader} {stream : InStream} {s : ReaderPipeline Object}
      (more : 1 < nthreads)
      (start : readQdataObjectStart xxh validateChecksum ⟨bytes,0⟩ = .ok (header,stream))
      (run : ReaderRuns (z.decompressor header.shuffle) (streamRead maxDepth) resets
        stream.remaining s)
      (exited : s.phase.Exited) : ReadsTo nthreads bytes s.phase.object

end

/-- What a value needs to come back from what was written of it: that every block could be
compressed, that the reader's counter reaches the end of every payload, and a depth limit
that is not below its depth. -/
structure Recoverable (cp : Compressor) (maxDepth d : Nat) (v : Value) : Prop where
  compressed : ¬ Failed cp (blocksOf [] (streamWrite maxDepth v).pushed)
  counted : Readable [] (streamWrite maxDepth v.native).pushed
  shallow : v.depth ≤ d

theorem groups_readable_short {groups : List WriteGroup} {block : Bytes}
    (hb : block.length ≤ maxBlocksize) (hg : ∀ g ∈ groups, g.Fits)
    (hshort : (pushedBytes (groups.flatMap WriteGroup.calls)).length < 2 ^ 32) :
    Readable block (groups.flatMap WriteGroup.calls) := by
  induction groups generalizing block with
  | nil => trivial
  | cons g groups ih =>
    have hrest := fun x hx => hg x (List.mem_cons_of_mem g hx)
    have hfit := hg g List.mem_cons_self
    rw [List.flatMap_cons,pushedBytes_append,List.length_append] at hshort
    have ih := fun block hb => @ih block hb hrest (by omega)
    rw [List.flatMap_cons]
    cases g with
    | header b tail =>
      exact ⟨by simp [ReadsBack],contiguous_readable (cutCall_pod_room block b).1
        (ih _ (hfit.room block))⟩
    | data bs =>
      have hlen : bs.length < 2 ^ 32 := by
        simp only [WriteGroup.calls,pushedBytes_cons,PushOp.bytes,List.length_append] at hshort
        omega
      have hcount : Countable block bs.length := by
        rw [Countable]
        omega
      exact ⟨⟨hb,hcount⟩,ih _ (Nat.le_of_lt (cutCall_data_room block bs))⟩

theorem streamWrite_readable {maxDepth : Nat} {v : Value}
    (h : (pushedBytes (streamWrite maxDepth v).pushed).length < 2 ^ 32) :
    Readable [] (streamWrite maxDepth v).pushed := by
  obtain ⟨groups,hg,hfit⟩ := streamWrite_grouped maxDepth v
  rw [hg] at h ⊢
  exact groups_readable_short (Nat.zero_le _) hfit h

theorem emitted_not_broken {dp : Decompressor} {cp : Compressor} {blocks : List Bytes} (k : Nat)
    (hne : ∀ b ∈ blocks, b ≠ [])
    (hr : ∀ i, (h : i < blocks.length) → Restores dp cp (k+i) blocks[i]) :
    ¬ Broken dp (emitBlocks cp k blocks) := by
  induction blocks generalizing k with
  | nil =>
    have hread : readZblock [] = .noSize := rfl
    have hend := @zblocks_end [] (by simp [hread])
    rintro (⟨b,hb,_⟩ | hover)
    · rw [emitBlocks_nil,decompressed,hend.1] at hb
      cases hb
    · rw [emitBlocks_nil,hend.2,hread] at hover
      cases hover
  | cons b blocks ih =>
    have hb : Restores dp cp k b := hr 0 (Nat.zero_lt_succ _)
    have ih := ih (k+1) (fun x hx => hne x (List.mem_cons_of_mem _ hx)) fun i hi => by
      have hs : Restores dp cp (k+(i+1)) blocks[i] := hr (i+1) (Nat.succ_lt_succ hi)
      rwa [show k+(i+1) = k+1+i by omega] at hs
    obtain ⟨hcons,hend⟩ := zblocks_cons (readZblock_emit (cp k b) (emitBlocks cp (k+1) blocks))
    rintro (⟨x,hx,hnil⟩ | hover)
    · rw [emitBlocks,decompressed,hcons,List.map_cons] at hx
      rcases List.mem_cons.mp hx with rfl | hx
      · rw [show (dp.decompress (cp k b).bytes (cp k b).zsize).1 = b from hb] at hnil
        exact hne b List.mem_cons_self hnil
      · exact ih (.inl ⟨x,hx,hnil⟩)
    · rw [emitBlocks,hend] at hover
      exact ih (.inr hover)

section
variable {z : Zstd} {xxh : Bytes → UInt64} {compressLevel : Int} {shuffle : Bool}
  {maxDepth : Nat} {v : Value} {nthreads : Int} {out : Bytes} {hash : UInt64}

theorem restores_of_compressed (hz : z.Inverts)
    (h : ¬ Failed (z.compressor shuffle compressLevel) (blocksOf [] (streamWrite maxDepth v).pushed)) :
    ∀ i, (hi : i < (blocksOf [] (streamWrite maxDepth v).pushed).length) →
      Restores (z.decompressor shuffle) (z.compressor shuffle compressLevel) (0+i)
        (blocksOf [] (streamWrite maxDepth v).pushed)[i] := by
  intro i hi
  have hs := blocksOf_sizes (Nat.zero_le _) (streamWrite_inBounds maxDepth v)
  obtain ⟨hp,hm⟩ := hs _ (List.getElem_mem hi)
  refine hz.lossless shuffle compressLevel _ _ hp hm fun hfail => h ⟨i,_,
    List.getElem?_eq_getElem hi,?_⟩
  rwa [Nat.zero_add] at hfail

theorem Returns.single_reads (hz : z.Inverts)
    (h : Returns z xxh compressLevel shuffle maxDepth v nthreads out hash) (d : Nat) (o : Object) :
    readSingleThread (z.decompressor shuffle) out d = .ok o ↔
      o = v.toObject ∧ Recoverable (z.compressor shuffle compressLevel) maxDepth d v := by
  obtain ⟨he,hout,_⟩ := h.stream
  have hs := blocksOf_sizes (Nat.zero_le _) (streamWrite_inBounds maxDepth v)
  by_cases hfail : Failed (z.compressor shuffle compressLevel)
      (blocksOf [] (streamWrite maxDepth v).pushed)
  · -- the reader stops at the block that is missing
    obtain ⟨j,hcontents,hall⟩ := feed_front (hz.lossless shuffle compressLevel) hs 0
      ((List.append_nil out).trans hout)
    have hj : j < (blocksOf [] (streamWrite maxDepth v).pushed).length := by
      by_contra hj
      obtain ⟨i,b,hi,hzsize⟩ := hfail
      have hne := (hall (Nat.le_of_not_lt hj)).2 i b hi
      rw [Nat.zero_add] at hne
      exact hne hzsize
    have hmissing : Incomplete (streamRead d)
        ((streamSource (z.decompressor shuffle)).feed out).bytes := by
      rw [Feed.bytes,← Feed.contents,hcontents]
      exact blocks_front he hj d
    obtain ⟨e,herror⟩ := readSingleThread_incomplete hmissing
    rw [herror]
    exact ⟨fun h => (by cases h),fun h => absurd hfail h.2.compressed⟩
  · have hl := (streamWrite_error.mp he).2.1
    have hcontents : ((streamSource (z.decompressor shuffle)).feed out).contents =
        blocksOf [] (streamWrite maxDepth v).pushed := by
      rw [hout]
      exact feed_emitted hs (restores_of_compressed hz hfail)
    have hcut := (streamWrite_sameBlocks (v.initialized hl) maxDepth).cut []
    have hsame : blocksOf [] (streamWrite maxDepth v).pushed =
        blocksOf [] (streamWrite maxDepth v.native).pushed := by rw [blocksOf,blocksOf,hcut]
    have hbytes : ((streamSource (z.decompressor shuffle)).feed out).bytes =
        pushedBytes (streamWrite maxDepth v).pushed := by
      rw [Feed.bytes,← Feed.contents,hcontents,blocksOf_flatten,List.nil_append]
    rw [readSingleThread_eq]
    generalize (streamSource (z.decompressor shuffle)).feed out = f at hcontents hbytes
    have hstart : Positioned [] (blocksOf [] ((streamWrite maxDepth v.native).pushed ++ []))
        (Cursor.start f) := by
      rw [List.append_nil,← hsame,← hcontents]
      exact readFeed_start f
    have hin := streamWrite_inBounds maxDepth v.native
    constructor
    · intro hread
      obtain ⟨c,hc⟩ : ∃ c, readFeed (streamRead d) f = .ok (o,c) := by
        cases hr : readFeed (streamRead d) f with
        | error e => rw [hr] at hread; cases hread
        | ok x => rw [hr] at hread; cases hread; exact ⟨x.2,rfl⟩
      have hchannel := readFeed_channel hc
      have hd : d ≠ 0 := by
        rintro rfl
        cases hchannel
      have hwritten := streamRead_written he hd []
      rw [List.append_nil,← hbytes,hchannel] at hwritten
      split at hwritten
      · next hdepth =>
        refine ⟨(Prod.mk.inj (Except.ok.inj hwritten)).1,hfail,?_,hdepth⟩
        by_contra hlong
        obtain ⟨e,herror⟩ := (streamRead_retraces he hdepth).fails (Nat.zero_le _) hin hlong hstart
        rw [readFeed,herror] at hc
        cases hc
      · cases hwritten
    · rintro ⟨rfl,hrec⟩
      obtain ⟨c,hc,_⟩ := (streamRead_retraces he hrec.shallow).reads (Nat.zero_le _) hin
        hrec.counted hstart
      rw [readFeed,hc]
      rfl

theorem Returns.multi_reads (hz : z.Inverts)
    (h : Returns z xxh compressLevel shuffle maxDepth v nthreads out hash) {d : Nat}
    {resets : Bool} {s : ReaderPipeline Object}
    (run : ReaderRuns (z.decompressor shuffle) (streamRead d) resets out s)
    (exited : s.phase.Exited) (o : Object) :
    s.phase.object = some o ↔
      o = v.toObject ∧ Recoverable (z.compressor shuffle compressLevel) maxDepth d v := by
  constructor
  · intro ho
    exact (h.single_reads hz d o).mp (returned_single run (ReaderPhase.object_eq_some.mp ho))
  · rintro ⟨ho,hrec⟩
    have hsingle := (h.single_reads hz d o).mpr ⟨ho,hrec⟩
    have hs := blocksOf_sizes (Nat.zero_le _) (streamWrite_inBounds maxDepth v)
    have hb : ¬ Broken (z.decompressor shuffle) out := by
      rw [h.stream.2.1]
      exact emitted_not_broken 0 hs.ne_nil (restores_of_compressed hz hrec.compressed)
    rw [exited_returned run hb exited hsingle]
    rfl

theorem toOption_eq_some {r : ReadResult Object} {o : Object} : r.toOption = some o ↔ r = .ok o := by
  cases r with
  | error e => exact ⟨fun h => (by cases h),nofun⟩
  | ok x => exact ⟨fun h => congrArg Except.ok (Option.some.inj h),
      fun h => congrArg some (Except.ok.inj h)⟩

theorem remaining_saved (shuffle : Bool) (out : Bytes) (hash : UInt64) :
    (InStream.mk (savedBytes shuffle out hash) 24).remaining = out := by
  rw [InStream.remaining,savedBytes,writeQxHash_bytes]
  exact drop_stored shuffle hash out

/-- Reading what was saved returns the value's object exactly when the value is recoverable,
and otherwise throws. -/
theorem Returns.reads_back (hz : z.Inverts)
    (h : Returns z xxh compressLevel shuffle maxDepth v nthreads out hash)
    {resets validateChecksum : Bool} {d : Nat} {readers : Int} {r : Option Object}
    (hr : ReadsTo z xxh resets validateChecksum d readers (savedBytes shuffle out hash) r) :
    (r = some v.toObject ∧ Recoverable (z.compressor shuffle compressLevel) maxDepth d v) ∨
      (r = none ∧ ¬ Recoverable (z.compressor shuffle compressLevel) maxDepth d v) := by
  have hne : hash ≠ 0 := by
    rw [h.stream.2.2]
    exact digest_ne_zero xxh out
  have hstart := readQdataObjectStart_stored shuffle h.stream.2.2 hne validateChecksum
  rw [← writeQxHash_bytes shuffle out hash,← savedBytes] at hstart
  have hr : ∀ o, r = some o ↔
      o = v.toObject ∧ Recoverable (z.compressor shuffle compressLevel) maxDepth d v := by
    cases hr with
    | rejected start =>
      rw [hstart] at start
      cases start
    | single one start =>
      rw [hstart] at start
      cases start
      rw [remaining_saved]
      exact fun o => toOption_eq_some.trans (h.single_reads hz d o)
    | multi more start run exited =>
      rw [hstart] at start
      cases start
      rw [remaining_saved] at run
      exact h.multi_reads hz run exited
  by_cases hrec : Recoverable (z.compressor shuffle compressLevel) maxDepth d v
  · exact .inl ⟨(hr _).mpr ⟨rfl,hrec⟩,hrec⟩
  · cases r with
    | none => exact .inr ⟨rfl,hrec⟩
    | some o => exact absurd ((hr o).mp rfl).2 hrec

variable (z xxh) in
/-- Some read of any bytes ends. -/
theorem readsTo_exists (resets validateChecksum : Bool) (d : Nat) (readers : Int)
    (bytes : Bytes) : ∃ r, ReadsTo z xxh resets validateChecksum d readers bytes r := by
  cases hstart : readQdataObjectStart xxh validateChecksum ⟨bytes,0⟩ with
  | error e => exact ⟨none,.rejected hstart⟩
  | ok x =>
    obtain ⟨header,stream⟩ := x
    by_cases hn : readers ≤ 1
    · exact ⟨_,.single hn hstart⟩
    · have run : ReaderRuns (z.decompressor header.shuffle) (streamRead d) resets
          stream.remaining _ := .refl
      obtain ⟨t,ht,exited⟩ := run.exits
      exact ⟨_,.multi (by omega) hstart ht exited⟩

/-- What was saved reads back: every read of it, on one thread or several and in every
schedule, with or without validation, returns the value's object exactly when the value is
recoverable, and otherwise throws. No read returns any other object, and some read ends. -/
theorem saved_reads_back (hz : z.Inverts)
    (h : Returns z xxh compressLevel shuffle maxDepth v nthreads out hash)
    (resets validateChecksum : Bool) (d : Nat) (readers : Int) :
    (∃ r, ReadsTo z xxh resets validateChecksum d readers (savedBytes shuffle out hash) r) ∧
    ∀ r, ReadsTo z xxh resets validateChecksum d readers (savedBytes shuffle out hash) r →
      (r = some v.toObject ∧
        Recoverable (z.compressor shuffle compressLevel) maxDepth d v) ∨
      (r = none ∧ ¬ Recoverable (z.compressor shuffle compressLevel) maxDepth d v) :=
  ⟨readsTo_exists z xxh resets validateChecksum d readers _,fun _ hr => h.reads_back hz hr⟩

/-- A wrapped vector without contiguous data, written on one thread and read on four. -/
theorem saved_reads_back_wrapped : ∃ out hash,
    Returns storedZstd (fun _ => 5) 3 true 2 wrappedSample 1 out hash ∧
    ∀ r, ReadsTo storedZstd (fun _ => 5) true true 2 4 (savedBytes true out hash) r →
      r = some (.list [.vector (.raw [1,2]) []] []) := by
  obtain ⟨out,hash,hreturns⟩ := @returns_exists storedZstd (fun _ => 5) 3 true 2 wrappedSample
    (by decide) (by decide) 1
  refine ⟨out,hash,hreturns,fun r hr => ?_⟩
  have hrec : Recoverable (storedZstd.compressor true 3) 2 2 wrappedSample := by
    refine ⟨?_,streamWrite_readable (by decide),by decide⟩
    have hone : blocksOf [] (streamWrite 2 wrappedSample).pushed =
        [[listHeader5+1,rawHeader32,2,0,0,0,1,2]] := by
      have hcalls : (streamWrite 2 wrappedSample).pushed = [.pod [listHeader5+1],
          .pod [rawHeader32],.podContiguous [2,0,0,0],.data [1],.data [2]] := by decide
      rw [hcalls,blocksOf_cons,cutCall,if_neg (by decide),blocksOf_cons,cutCall,
        if_neg (by decide),blocksOf_cons,cutCall,blocksOf_cons,cutCall_data_short (by decide),
        Chunks.cut_short (by decide),blocksOf_cons,cutCall_data_short (by decide),
        Chunks.cut_short (by decide)]
      rfl
    rw [hone]
    rintro ⟨i,b,hb,hz⟩
    cases i with
    | zero =>
      cases hb
      revert hz
      decide
    | succ i => cases hb
  rcases (saved_reads_back storedZstd_inverts hreturns true true 2 4).2 r hr with h | h
  · exact h.1
  · exact absurd hrec h.2

/-- What the blocks of a file hold, up to the first that cannot be read. -/
def contents (z : Zstd) (bytes : Bytes) : Bytes :=
  match readQdataHeader bytes with
  | .ok (header,rest) => ((streamSource (z.decompressor header.shuffle)).feed rest).bytes
  | .error _ => []

theorem readQdataObjectStart_ok {validateChecksum : Bool} {bytes : Bytes} {header : QdataHeader}
    {stream : InStream}
    (h : readQdataObjectStart xxh validateChecksum ⟨bytes,0⟩ = .ok (header,stream)) :
    readQdataHeader bytes = .ok (header,stream.remaining) := by
  have hposition := @InStream.position_read_le ⟨bytes,0⟩ (Nat.zero_le _) 24
  have hstart : (InStream.mk bytes 0).remaining = bytes := rfl
  rw [readQdataObjectStart,hstart] at h
  cases hheader : readQdataHeader bytes with
  | error e => rw [hheader] at h; cases h
  | ok x =>
    obtain ⟨header',rest⟩ := x
    have hbehind : ((InStream.mk bytes 0).read 24).2.remaining = rest := by
      rw [InStream.remaining_read,readQdataHeader_rest hheader,hstart]
    simp only [hheader,readQxHashAt_eq xxh hposition] at h
    have hsame : (header',((InStream.mk bytes 0).read 24).2) = (header,stream) := by
      split at h
      · split at h
        · cases h
        · split at h
          · cases h
          · exact Except.ok.inj h
      · exact Except.ok.inj h
    cases hsame
    rw [hbehind]

theorem ReadsTo.started {resets validateChecksum : Bool} {d : Nat} {readers : Int}
    {bytes : Bytes} {o : Object}
    (h : ReadsTo z xxh resets validateChecksum d readers bytes (some o)) :
    ∃ header stream,
      readQdataObjectStart xxh validateChecksum ⟨bytes,0⟩ = .ok (header,stream) ∧
      readSingleThread (z.decompressor header.shuffle) stream.remaining d = .ok o := by
  generalize hr : some o = r at h
  cases h with
  | rejected start => cases hr
  | single one start => exact ⟨_,_,start,toOption_eq_some.mp hr.symm⟩
  | multi more start run exited =>
    exact ⟨_,_,start,returned_single run (ReaderPhase.object_eq_some.mp hr.symm)⟩

/-- Whatever a reader returns, the contents of the blocks encode. -/
theorem ReadsTo.contents {resets validateChecksum : Bool} {d : Nat} {readers : Int}
    {bytes : Bytes} {o : Object}
    (h : ReadsTo z xxh resets validateChecksum d readers bytes (some o)) :
    ∃ rest, (streamRead d).run channel (contents z bytes) = .ok (o,rest) := by
  obtain ⟨header,stream,hstart,hread⟩ := h.started
  rw [QData.contents,readQdataObjectStart_ok hstart]
  rw [readSingleThread_eq] at hread
  cases hr : readFeed (streamRead d)
      ((streamSource (z.decompressor header.shuffle)).feed stream.remaining) with
  | error e => rw [hr] at hread; cases hread
  | ok x => rw [hr] at hread; cases hread; exact ⟨_,readFeed_channel hr⟩

/-- Files that hold the same bytes, as far as one of them goes, hold the same object: how the
bytes are cut into blocks, compressed, shuffled, hashed and read makes no difference. -/
theorem same_contents_same_object {z' : Zstd} {xxh' : Bytes → UInt64}
    {resets resets' validateChecksum validateChecksum' : Bool} {d d' : Nat}
    {readers readers' : Int} {bytes bytes' : Bytes} {o o' : Object}
    (h : ReadsTo z xxh resets validateChecksum d readers bytes (some o))
    (h' : ReadsTo z' xxh' resets' validateChecksum' d' readers' bytes' (some o'))
    (hfront : contents z bytes <+: contents z' bytes') : o = o' := by
  obtain ⟨rest,hread⟩ := h.contents
  obtain ⟨rest',hread'⟩ := h'.contents
  obtain ⟨tail,htail⟩ := hfront
  have hd : d' ≠ 0 := by
    rintro rfl
    cases hread'
  have hlimit := streamRead_limit (run_channel_extend hread tail) hd
  rw [htail,hread'] at hlimit
  split at hlimit
  · exact (Prod.mk.inj (Except.ok.inj hlimit)).1.symm
  · cases hlimit

theorem readsTo_garbage : ReadsTo storedZstd (fun _ => 5) true false 1 1
    (storedHeader false 0 ++ nilAndGarbage) (some .nil) :=
  @ReadsTo.single storedZstd (fun _ => 5) true false 1 1 (storedHeader false 0 ++ nilAndGarbage)
    ⟨false,0⟩ ⟨storedHeader false 0 ++ nilAndGarbage,24⟩ (by decide) rfl

theorem same_contents_same_object_garbage :
    ∃ o, ReadsTo storedZstd (fun _ => 7) false false 8 1
      (savedBytes true (storedCompressor 0 [nilHeader]).emit 7) (some o) ∧ Object.nil = o := by
  have hread := @ReadsTo.single storedZstd (fun _ => 7) false false 8 1
    (savedBytes true (storedCompressor 0 [nilHeader]).emit 7) ⟨true,7⟩
    ⟨savedBytes true (storedCompressor 0 [nilHeader]).emit 7,24⟩ (by decide) rfl
  refine ⟨.nil,hread,same_contents_same_object readsTo_garbage hread ?_⟩
  have hgarbage : contents storedZstd (storedHeader false 0 ++ nilAndGarbage) = [nilHeader] := by
    have hheader : readQdataHeader (storedHeader false 0 ++ nilAndGarbage) =
        .ok (⟨false,0⟩,nilAndGarbage) := rfl
    rw [contents,hheader]
    simp only
    rw [BlockSource.feed_ok rfl,BlockSource.feed_error rfl]
    rfl
  have hsaved : contents storedZstd (savedBytes true (storedCompressor 0 [nilHeader]).emit 7) =
      [nilHeader] := by
    have hheader : readQdataHeader (savedBytes true (storedCompressor 0 [nilHeader]).emit 7) =
        .ok (⟨true,7⟩,(storedCompressor 0 [nilHeader]).emit) := rfl
    rw [contents,hheader]
    simp only
    rw [BlockSource.feed_ok rfl,BlockSource.feed_error rfl]
    rfl
  exact hgarbage.trans hsaved.symm ▸ List.prefix_refl _

/-- An object that some reader made of any bytes can be saved again with any settings, and
what was saved reads back as that object. -/
theorem read_saves_again (hz : z.Inverts) {resets validateChecksum : Bool} {d : Nat}
    {readers : Int} {bytes : Bytes} {o : Object}
    (h : ReadsTo z xxh resets validateChecksum d readers bytes (some o))
    (hlevel : z.minCLevel ≤ compressLevel ∧ compressLevel ≤ z.maxCLevel) :
    (∃ out hash, Returns z xxh compressLevel shuffle d o.toValue nthreads out hash) ∧
    ∀ out hash, Returns z xxh compressLevel shuffle d o.toValue nthreads out hash →
      ∀ resets validateChecksum readers r,
        ReadsTo z xxh resets validateChecksum d readers (savedBytes shuffle out hash) r →
        r = some o ∨ (r = none ∧
          (Failed (z.compressor shuffle compressLevel)
              (blocksOf [] (streamWrite d o.toValue).pushed) ∨
            ¬ Readable [] (streamWrite d o.toValue).pushed)) := by
  obtain ⟨_,hchannel⟩ := h.contents
  obtain ⟨_,hdepth,hwrite,_⟩ := read_writes_back hchannel
  refine ⟨returns_exists xxh shuffle (validateWriteArguments_eq_none.mpr hlevel) hwrite nthreads,
    fun out hash hreturns resets validateChecksum readers r hr => ?_⟩
  rcases hreturns.reads_back hz hr with h | h
  · rw [toObject_toValue] at h
    exact .inl h.1
  · refine .inr ⟨h.1,?_⟩
    by_contra hgood
    rw [not_or,not_not] at hgood
    refine h.2 ⟨hgood.1,?_,hdepth⟩
    rw [Value.native,toObject_toValue]
    exact hgood.2

/-- The nil object in front of the garbage, saved again at another level. -/
theorem read_saves_again_garbage : ∃ out hash,
    Returns storedZstd (fun _ => 5) 19 true 1 .nil 1 out hash ∧
    ∀ r, ReadsTo storedZstd (fun _ => 5) true true 1 2 (savedBytes true out hash) r →
      r = some .nil ∨ (r = none ∧ (Failed (storedZstd.compressor true 19)
        (blocksOf [] (streamWrite 1 .nil).pushed) ∨
          ¬ Readable [] (streamWrite 1 .nil).pushed)) := by
  obtain ⟨⟨out,hash,hreturns⟩,hall⟩ := @read_saves_again storedZstd (fun _ => 5) 19 true 1
    storedZstd_inverts true false 1 1 _ _ readsTo_garbage (by decide)
  exact ⟨out,hash,hreturns,fun r hr => hall out hash hreturns true true 2 r hr⟩

end

end QData
