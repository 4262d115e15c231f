import QData.WriterPipeline
/-! What becomes of a write when a compression fails: neither writer looks at the size it
gets back. -/
set_option autoImplicit false

namespace QData
open Words

/-- Some block's `compress` returned `COMPRESSION_ERROR`. -/
def Failed (cp : Compressor) (blocks : List Bytes) : Prop :=
  ∃ i b, blocks[i]? = some b ∧ (cp i b).zsize = compressionError

/-- What a caller relies on: a stream that was returned decompresses to everything that
was pushed, and nothing is returned once a compression has failed. -/
structure Trusted (dp : Decompressor) (cp : Compressor) (ops : List PushOp)
    (returned : Option Bytes) : Prop where
  decodes : ∀ stream, returned = some stream →
    ((streamSource dp).feed stream).contents.flatten = pushedBytes ops
  raises : Failed cp (blocksOf [] ops) → returned = none

def WriterPipeline.returned (s : WriterPipeline) : Option Bytes :=
  match s.phase with
  | .finished _ => some s.out
  | _ => none

section
variable {dp : Decompressor} {cp : Compressor} (hl : Lossless dp cp) {ops : List PushOp}
  (hb : InBounds [] ops)
include hl hb

/-- The blocks of a complete stream decompress to all pushed bytes exactly when every
compression succeeded. -/
theorem emitted_decodes_iff :
    ((streamSource dp).feed (emitBlocks cp 0 (blocksOf [] ops))).contents.flatten =
      pushedBytes ops ↔ ¬ Failed cp (blocksOf [] ops) := by
  have hs := blocksOf_sizes (Nat.zero_le _) hb
  have hflat : (blocksOf [] ops).flatten = pushedBytes ops := blocksOf_flatten [] ops
  rw [← hflat]
  constructor
  · intro h
    obtain ⟨j,hc,hj⟩ := feed_front hl hs 0 (List.append_nil _)
    -- a block that is missing would make the stream shorter
    rw [hc] at h
    have hall := hs.flatten_take h
    rintro ⟨i,b,hi,hz⟩
    have hne := (hj hall).2 i b hi
    rw [Nat.zero_add] at hne
    exact hne hz
  · intro h
    have hrest : ∀ i, (hi : i < (blocksOf [] ops).length) →
        Restores dp cp (0+i) (blocksOf [] ops)[i] := by
      intro i hi
      obtain ⟨hp,hm⟩ := hs _ (List.getElem_mem hi)
      refine hl _ _ hp hm fun hz => h ⟨i,_,List.getElem?_eq_getElem hi,?_⟩
      rwa [Nat.zero_add] at hz
    rw [feed_emitted hs hrest]

theorem trusted_iff {stream : Bytes} (h : stream = emitBlocks cp 0 (blocksOf [] ops)) :
    Trusted dp cp ops (some stream) ↔ ¬ Failed cp (blocksOf [] ops) := by
  subst h
  constructor
  · intro ht hf
    cases ht.raises hf
  · intro hf
    refine ⟨?_,fun h => absurd h hf⟩
    rintro _ ⟨⟩
    exact (emitted_decodes_iff hl hb).mpr hf

/-- `finish()` of either writer, in any order of tasks, can be trusted exactly when no
compression failed; otherwise it returns all the same, and from what it has written the
pushed bytes do not come back. -/
theorem compression_failure_iff (xxh : Bytes → UInt64) (directMem : Bool) :
    (Trusted dp cp ops (some ((({} : BlockWriter).pushAll cp ops).finish cp xxh).1.out) ↔
        ¬ Failed cp (blocksOf [] ops)) ∧
      (∀ s, WriterRuns cp xxh directMem none ops s → s.phase.Exited →
        (Trusted dp cp ops s.returned ↔ ¬ Failed cp (blocksOf [] ops))) ∧
      (Failed cp (blocksOf [] ops) → ∀ stream,
        (stream = ((({} : BlockWriter).pushAll cp ops).finish cp xxh).1.out ∨
          ∃ s, WriterRuns cp xxh directMem none ops s ∧ s.returned = some stream) →
        ((streamSource dp).feed stream).contents.flatten ≠ pushedBytes ops) := by
  have hsingle : ((({} : BlockWriter).pushAll cp ops).finish cp xxh).1.out =
      emitBlocks cp 0 (blocksOf [] ops) := by
    rw [BlockWriter.finish_eq]
    rfl
  have hmulti : ∀ s stream, WriterRuns cp xxh directMem none ops s →
      s.returned = some stream → stream = emitBlocks cp 0 (blocksOf [] ops) := by
    intro s stream run h
    rw [WriterPipeline.returned] at h
    split at h
    · next hash hphase =>
      cases h
      exact (run.finished hphase).1
    · cases h
  refine ⟨trusted_iff hl hb hsingle,fun s run hexit => ?_,fun hfail stream hstream hdec => ?_⟩
  · obtain ⟨hash,hphase⟩ := run.exited_finished hexit
    have hreturned : s.returned = some s.out := by simp [WriterPipeline.returned,hphase]
    rw [hreturned]
    exact trusted_iff hl hb (run.finished hphase).1
  · have hstream : stream = emitBlocks cp 0 (blocksOf [] ops) := by
      rcases hstream with rfl | ⟨s,run,h⟩
      · exact hsingle
      · exact hmulti s stream run h
    rw [hstream] at hdec
    exact (emitted_decodes_iff hl hb).mp hdec hfail

end

/-- A compressor that runs out of memory on its `n`-th call. -/
def exhaustedCompressor (n : Nat) : Compressor := fun k b =>
  if k = n then ⟨compressionError,[],by decide,rfl,by decide⟩ else storedCompressor k b

theorem exhausted_lossless (n : Nat) : Lossless storedDecompressor (exhaustedCompressor n) := by
  intro k b hp hm hz
  by_cases hk : k = n
  · rw [exhaustedCompressor,if_pos hk] at hz
    exact absurd rfl hz
  · have hs := stored_lossless k b hp hm (stored_neverFails k b hp hm)
    rw [Restores] at hs ⊢
    rwa [exhaustedCompressor,if_neg hk]

/-- Three blocks, of which the second fails to compress, out of either writer. -/
theorem compression_failure_second :
    ∃ payload : Bytes, payload.length = 3000000 ∧
      (¬ Trusted storedDecompressor (exhaustedCompressor 1) [.data payload]
        (some ((({} : BlockWriter).pushAll (exhaustedCompressor 1) [.data payload]).finish
          (exhaustedCompressor 1) fun _ => 5).1.out)) ∧
      ∃ s, WriterRuns (exhaustedCompressor 1) (fun _ => 5) true none [.data payload] s ∧
        s.phase.Exited ∧
        ¬ Trusted storedDecompressor (exhaustedCompressor 1) [.data payload] s.returned := by
  obtain ⟨payload,hp⟩ : ∃ payload : Bytes, payload.length = 3000000 :=
    ⟨List.replicate _ 7,List.length_replicate⟩
  have hfail : Failed (exhaustedCompressor 1) (blocksOf [] [.data payload]) := by
    obtain ⟨first,second,rest,hblocks⟩ : ∃ first second rest,
        blocksOf [] [.data payload] = first :: second :: rest := by
      have hfirst : maxBlocksize ≤ payload.length := by rw [hp]; decide
      have hsecond : maxBlocksize ≤ (payload.drop maxBlocksize).length := by
        rw [List.length_drop,hp]
        decide
      rw [blocksOf_cons,cutCall,if_neg (by decide),List.nil_append,
        Chunks.cut_long (by decide) hfirst,Chunks.cut_long (by decide) hsecond]
      exact ⟨_,_,_,rfl⟩
    exact ⟨1,second,by rw [hblocks]; rfl,rfl⟩
  have hbounds : InBounds [] [.data payload] :=
    ⟨Nat.le_of_lt (cutCall_data_room [] payload),trivial⟩
  obtain ⟨hsingle,hmulti,_⟩ := compression_failure_iff (exhausted_lossless 1) hbounds
    (fun _ => 5) true
  have start : WriterRuns (exhaustedCompressor 1) (fun _ => 5) true none [.data payload] _ := .refl
  obtain ⟨t,hash,run,hphase⟩ := start.completes
  have hexit : t.phase.Exited := by rw [hphase]; trivial
  exact ⟨payload,hp,fun h => hsingle.mp h hfail,t,run,hexit,
    fun h => (hmulti t run hexit).mp h hfail⟩
/-- The only block of a nil object fails to compress: both writers return, with a size
word of zero and nothing else on the stream. -/
theorem compression_failure_unnoticed :
    Lossless storedDecompressor (exhaustedCompressor 0) ∧
      (¬ Trusted storedDecompressor (exhaustedCompressor 0) [.pod [nilHeader]]
        (some ((({} : BlockWriter).pushAll (exhaustedCompressor 0) [.pod [nilHeader]]).finish
          (exhaustedCompressor 0) fun _ => 5).1.out)) ∧
      ((streamSource storedDecompressor).feed [0,0,0,0]).contents = [] ∧
      ∃ s, WriterRuns (exhaustedCompressor 0) (fun _ => 5) true none [.pod [nilHeader]] s ∧
        s.returned = some [0,0,0,0] ∧
        ¬ Trusted storedDecompressor (exhaustedCompressor 0) [.pod [nilHeader]] s.returned := by
  have hfail : Failed (exhaustedCompressor 0) (blocksOf [] [.pod [nilHeader]]) :=
    ⟨0,[nilHeader],rfl,rfl⟩
  have hraises : ∀ stream, ¬ Trusted storedDecompressor (exhaustedCompressor 0)
      [.pod [nilHeader]] (some stream) := by
    intro stream h
    cases h.raises hfail
  have hlost : ((streamSource storedDecompressor).feed [0,0,0,0]).contents = [] := by
    rw [BlockSource.feed_error (e := cleanupHalt "Decompression error") rfl]
    rfl
  refine ⟨exhausted_lossless 0,hraises _,hlost,?_⟩
  have called : WriterRuns (exhaustedCompressor 0) (fun _ => 5) true none [.pod [nilHeader]] _ :=
    .single (.call rfl rfl rfl)
  have taken := (called.tail (.finish rfl rfl rfl rfl)).tail (.submit rfl)
  have compressed := taken.tail (.compress [] [] rfl)
  have written := (compressed.tail (.sequence [] [] rfl)).tail (.write rfl)
  have waited := written.tail (.wait rfl ⟨rfl,rfl,rfl,rfl⟩)
  exact ⟨_,waited,rfl,hraises _⟩

end QData
