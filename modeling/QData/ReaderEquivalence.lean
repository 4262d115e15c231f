import QData.ReaderSafety
import QData.ReaderProgress
/-! Multithreaded against single-threaded reading: what one returns the other returns, as
long as nothing behind the object spoils the stream. -/
set_option autoImplicit false

namespace QData
open Words Requests Systems Sequencing

section
variable {dp : Decompressor} {resets : Bool} {stream : Bytes} {maxDepth : Nat}

variable (dp resets) in
theorem read_ahead {α : Type} (p : Reader α) (k : Nat) (hk : k ≤ (zblocks stream).length) :
    ∃ rest tasks, zblocks rest = (zblocks stream).drop k ∧
      streamEnd rest = streamEnd stream ∧
      (∀ i z, i < k → (zblocks stream)[i]? = some z → (i,z) ∈ tasks) ∧
      ReaderRuns dp p resets stream
        { stream := rest, blocksToProcess := k, tasks := tasks } := by
  induction k with
  | zero => exact ⟨stream,[],rfl,rfl,by simp,Relation.ReflTransGen.refl⟩
  | succ k ih =>
    obtain ⟨rest,tasks,hz,he,htasks,run⟩ := ih (by omega)
    cases hread : readZblock rest with
    | zblock zsize zbytes rest' =>
      obtain ⟨hz',he'⟩ := zblocks_cons hread
      have hcons : (zblocks stream).drop k = ⟨zsize,zbytes⟩ :: zblocks rest' := by
        rw [← hz,hz']
      refine ⟨rest',tasks ++ [(k,⟨zsize,zbytes⟩)],?_,he'.symm.trans he,?_,
        run.tail (.read rfl hread)⟩
      · rw [← List.tail_drop,hcons]
        rfl
      · intro i z hi hget
        by_cases hlast : i = k
        · subst hlast
          rw [← List.head?_drop,hcons] at hget
          cases hget
          simp
        · exact List.mem_append_left _ (htasks i z (by omega) hget)
    | _ =>
      have hnil : zblocks rest = [] := (zblocks_end (by simp [hread])).1
      rw [hz,List.drop_eq_nil_iff] at hnil
      omega

section
variable {α : Type} {p : Reader α} {s : ReaderPipeline α}

theorem drop_all (hc : s.cancelled = true) :
    Runs (ReaderStep dp p resets) s { s with sourceOn := false, tasks := [], outbox := [] } := by
  obtain ⟨stream,on,eof,count,tasks,outbox,q,cancelled,failed,processed,got,phase⟩ := s
  simp only at hc
  subst hc
  have hoff : Runs (ReaderStep dp p resets)
      ⟨stream,on,eof,count,tasks,outbox,q,true,failed,processed,got,phase⟩
      ⟨stream,false,eof,count,tasks,outbox,q,true,failed,processed,got,phase⟩ := by
    cases on with
    | false => exact .refl
    | true => exact .single (.dropSource rfl rfl)
  have htasks : ∀ tasks, Runs (ReaderStep dp p resets)
      ⟨stream,false,eof,count,tasks,outbox,q,true,failed,processed,got,phase⟩
      ⟨stream,false,eof,count,[],outbox,q,true,failed,processed,got,phase⟩ := by
    intro tasks
    induction tasks with
    | nil => exact .refl
    | cons t tasks ih => exact .head (.dropTask [] tasks rfl rfl) ih
  have houtbox : ∀ outbox, Runs (ReaderStep dp p resets)
      ⟨stream,false,eof,count,[],outbox,q,true,failed,processed,got,phase⟩
      ⟨stream,false,eof,count,[],[],q,true,failed,processed,got,phase⟩ := by
    intro outbox
    induction outbox with
    | nil => exact .refl
    | cons x outbox ih => exact .head (.dropBlock [] outbox rfl rfl) ih
  exact (hoff.trans (htasks tasks)).trans (houtbox outbox)

variable (dp resets) in
theorem cancelled_exit (hc : s.cancelled = true) (heof : s.endOfFile = false)
    (running : s.phase = .running) (asks : demand p s.got = .error .blocked)
    (next : s.sequencer.next = none) :
    ∃ t, Runs (ReaderStep dp p resets) s t ∧ t.phase = .thrown .broken := by
  obtain ⟨stream,on,eof,count,tasks,outbox,q,cancelled,failed,processed,got,phase⟩ := s
  simp only at hc heof running asks next
  subst hc heof running
  have dropped : Runs (ReaderStep dp p resets) _ _ := drop_all
    (s := ⟨stream,on,false,count,tasks,outbox,q,true,failed,processed,got,.running⟩) rfl
  have missed := ((dropped.tail (.miss rfl asks next)).tail (.loadEnd rfl)).tail
    (.loadCancelled rfl)
  exact ⟨_,(missed.tail (.cancel rfl)).tail (.wait rfl ⟨rfl,rfl,rfl⟩),rfl⟩

end

theorem streamRead_asks (h : maxDepth ≠ 0) : demand (streamRead maxDepth) [] = .error .blocked := by
  cases maxDepth with
  | zero => exact absurd rfl h
  | succ n => rfl

theorem readSingleThread_zero : readSingleThread dp stream 0 =
    .error (.error (.direct "max_depth must be at least 1")) := rfl

variable (resets) in
/-- On a stream that is broken somewhere some run fails, wherever the object ends. -/
theorem broken_fails (hb : Broken dp stream) (hd : maxDepth ≠ 0) :
    ∃ s, ReaderRuns dp (streamRead maxDepth) resets stream s ∧ s.phase = .thrown .broken := by
  rcases hb with ⟨b,hmem,hnil⟩ | hover
  · obtain ⟨z,hz,rfl⟩ := List.mem_map.mp hmem
    obtain ⟨i,hi⟩ := List.mem_iff_getElem?.mp hz
    have hlt := (List.getElem?_eq_some_iff.mp hi).1
    obtain ⟨rest,tasks,_,_,htasks,run⟩ :=
      read_ahead dp resets (streamRead maxDepth) (i+1) hlt
    obtain ⟨before,after,hsplit⟩ := List.append_of_mem (htasks i z (Nat.lt_succ_self i) hi)
    subst hsplit
    have failed := run.tail (.decompressError before after rfl hnil)
    obtain ⟨t,ht,hphase⟩ := cancelled_exit dp resets
      (s := { stream := rest, blocksToProcess := i+1, tasks := before ++ after,
              outbox := [(0,dp.decompress z.bytes z.zsize)], cancelled := true, failed := true })
      rfl rfl rfl (streamRead_asks hd) rfl
    exact ⟨t,failed.trans ht,hphase⟩
  · obtain ⟨rest,tasks,hz,he,_,run⟩ := read_ahead dp resets
      (streamRead maxDepth) (zblocks stream).length (Nat.le_refl _)
    have hread : readZblock rest = .oversized := by
      have hnone : ∀ zsize zbytes rest', readZblock rest ≠ .zblock zsize zbytes rest' := by
        intro zsize zbytes rest' h
        have hcons := (zblocks_cons h).1
        rw [hz,List.drop_length] at hcons
        cases hcons
      rw [← (zblocks_end hnone).2,he,hover]
    have stopped := run.tail (.readOversized rfl hread)
    obtain ⟨t,ht,hphase⟩ := cancelled_exit dp resets
      (s := { stream := rest, sourceOn := false, blocksToProcess := (zblocks stream).length,
              tasks := tasks, cancelled := true })
      rfl rfl rfl (streamRead_asks hd) rfl
    exact ⟨t,stopped.trans ht,hphase⟩

theorem readFeed_handed {α : Type} {p : Reader α} (hp : p.Asks GetOp.Sized)
    {s : ReaderPipeline α} (run : ReaderRuns dp p resets stream s)
    (h : demand p s.got ≠ .error .blocked)
    (hc : s.failed = true → demand p s.got ≠ .error corrupted) :
    (readFeed p ((streamSource dp).feed stream)).map Prod.fst = demand p s.got := by
  rcases (ReaderInv.run run).got_cases hp with ⟨hgot,hne⟩ | ⟨e,he,hgot,hf,hfirst⟩
  · have henough := readFeed_enough h
      (((decompressed dp stream).drop s.got.length).takeWhile (fun b => !b.1.isEmpty))
      ((streamSource dp).feed stream).stop
    rw [← feed_starts hgot hne] at henough
    exact henough
  · have hd : demand p ([] ++ [e]) = _ := demand_emptied hp he
    rw [List.nil_append,hfirst,← hgot] at hd
    exact absurd hd (hc hf)

variable {s : ReaderPipeline Object}

theorem readSingleThread_enough (run : ReaderRuns dp (streamRead maxDepth) resets stream s)
    (h : demand (streamRead maxDepth) s.got ≠ .error .blocked)
    (hc : s.failed = true → demand (streamRead maxDepth) s.got ≠ .error corrupted) :
    readSingleThread dp stream maxDepth = demand (streamRead maxDepth) s.got := by
  rw [readSingleThread_eq]
  exact readFeed_handed (streamRead_sized maxDepth) run h hc

/-- What the multithreaded reader returns, the single-threaded one returns. -/
theorem returned_single (run : ReaderRuns dp (streamRead maxDepth) resets stream s) {o : Object}
    (h : s.phase = .returned o) : readSingleThread dp stream maxDepth = .ok o := by
  have hp := (ReaderInv.run run).placed
  rw [Placed,h] at hp
  rw [readSingleThread_enough run (by simp [hp.1]) (fun _ => by simp [hp.1]),hp.1]

/-- On a stream that is nowhere broken, every run that has ended returned what the
single-threaded reader returns. -/
theorem exited_returned (run : ReaderRuns dp (streamRead maxDepth) resets stream s)
    (hb : ¬ Broken dp stream) (exited : s.phase.Exited) {o : Object}
    (h : readSingleThread dp stream maxDepth = .ok o) : s.phase = .returned o := by
  have hinv := ReaderInv.run run
  have hp := hinv.placed
  have hsized := streamRead_sized maxDepth
  have hstop : ∀ r, demand (streamRead maxDepth) s.got = r → r ≠ .error .blocked →
      r = .ok o := by
    intro r hr hne
    rw [← h,readSingleThread_enough run (by rw [hr]; exact hne)
      fun hf => absurd (.inl (hinv.flagged.failed hf).2) hb,hr]
  cases hphase : s.phase with
  | returned a =>
    rw [returned_single run hphase] at h
    rw [Except.ok.inj h]
  | escaped msg =>
    rw [Placed,hphase] at hp
    cases hstop _ hp (by simp)
  | thrown cause =>
    rw [Placed,hphase] at hp
    obtain ⟨hreason,_⟩ := hp
    cases cause with
    | broken => exact absurd hreason hb
    | endOfFile =>
      obtain ⟨_,_,hgot⟩ := hinv.endOfFile hsized (.inr (.inr hphase))
      have hne : ∀ b ∈ s.got, b.1 ≠ [] := fun b hb' hnil => hb (.inl ⟨b,hgot ▸ hb',hnil⟩)
      have hfeed : ((streamSource dp).feed stream).blocks = s.got ++ _ :=
        feed_starts (by rw [hgot,List.take_length]) hne
      rw [hgot,List.drop_length,List.takeWhile_nil,List.append_nil,← hgot] at hfeed
      have hread := readFeed_stop (streamRead maxDepth) s.got ((streamSource dp).feed stream).stop
      rw [readSingleThread_eq] at h
      rw [← hfeed] at hread
      rw [show (⟨((streamSource dp).feed stream).blocks,((streamSource dp).feed stream).stop⟩ :
        Feed) = (streamSource dp).feed stream from rfl,h,hfeed,hreason.1] at hread
      cases hread
    | reader msg => cases hstop _ hreason (by simp [cleanupHalt])
  | _ => rw [hphase] at exited; cases exited

end

/-- The two readers, on every byte string and in every schedule. What the multithreaded
one returns the single-threaded one returns. Where that one returns an object, the other
returns it in all its runs exactly when no block of the whole stream, behind the object
included, fails to decompress or is too large. Every run can end. -/
theorem multithreaded_reader (dp : Decompressor) (resets : Bool) (stream : Bytes)
    (maxDepth : Nat) :
    (∀ s o, ReaderRuns dp (streamRead maxDepth) resets stream s → s.phase = .returned o →
        readSingleThread dp stream maxDepth = .ok o) ∧
      (∀ o, readSingleThread dp stream maxDepth = .ok o →
        ((∀ s, ReaderRuns dp (streamRead maxDepth) resets stream s → s.phase.Exited →
            s.phase = .returned o) ↔ ¬ Broken dp stream)) ∧
      ∀ s, ReaderRuns dp (streamRead maxDepth) resets stream s →
        ∃ t, Runs (ReaderStep dp (streamRead maxDepth) resets) s t ∧ t.phase.Exited := by
  refine ⟨fun s o run h => returned_single run h,fun o h => ⟨fun hall hb => ?_,?_⟩,
    fun s run => run.exits⟩
  · have hd : maxDepth ≠ 0 := by
      rintro rfl
      rw [readSingleThread_zero] at h
      cases h
    obtain ⟨s,run,hphase⟩ := broken_fails resets hb hd
    have hret := hall s run (by rw [hphase]; trivial)
    rw [hphase] at hret
    cases hret
  · exact fun hb s run exited => exited_returned run hb exited h

def nilAndGarbage : Bytes := (storedCompressor 0 [nilHeader]).emit ++ [0xFF,0xFF,0xFF,0xFF]

theorem nilAndGarbage_broken : Broken storedDecompressor nilAndGarbage := by
  have hcons := zblocks_cons (readZblock_emit (storedCompressor 0 [nilHeader])
    [0xFF,0xFF,0xFF,0xFF])
  have hend : streamEnd [0xFF,0xFF,0xFF,0xFF] = .oversized := by
    have hread : readZblock [0xFF,0xFF,0xFF,0xFF] = .oversized := by decide
    rw [(zblocks_end (by simp [hread])).2,hread]
  exact .inr (hcons.2.trans hend)

/-- The single-threaded reader returns the object; the other may run into the garbage. -/
theorem multithreaded_reader_garbage :
    readSingleThread storedDecompressor nilAndGarbage 1 = .ok .nil ∧
      ∃ s, ReaderRuns storedDecompressor (streamRead 1) true nilAndGarbage s ∧
        s.phase = .thrown .broken :=
  ⟨rfl,broken_fails true nilAndGarbage_broken (by decide)⟩

end QData
