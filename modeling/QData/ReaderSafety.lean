import QData.ReaderPipeline
import QData.BlockStream
/-! What the consuming thread gets from the multithreaded reader: blocks of the stream in
order, or the empty block of a failed task, at which its call fails. -/
set_option autoImplicit false

namespace QData
open Words Requests Systems Sequencing

section
variable {α : Type} {dp : Decompressor} {p : Reader α} {resets : Bool} {stream : Bytes}
  {s : ReaderPipeline α}

/-- Either the blocks handed over are the first of the stream, or the only one is the empty
block of a failed task, and the call that received it found it corrupted. -/
theorem ReaderInv.got_cases (h : ReaderInv dp p stream s) (hp : p.Asks GetOp.Sized) :
    (s.got = (decompressed dp stream).take s.got.length ∧ ∀ b ∈ s.got, b.1 ≠ []) ∨
      ∃ e : Block, e.1 = [] ∧ s.got = [e] ∧ s.failed = true ∧
        demand p [] = .error .blocked := by
  by_cases hempty : ∃ e ∈ s.got, e.1 = []
  · obtain ⟨e,he,hnil⟩ := hempty
    obtain ⟨i,hi⟩ := List.mem_iff_getElem?.mp he
    obtain ⟨_,⟨hne,_⟩ | ⟨_,rfl,hfailed⟩⟩ := h.delivering.got i e hi
    · exact absurd hnil hne
    · obtain ⟨rest,hgot⟩ : ∃ rest, s.got = e :: rest := by
        cases hg : s.got with
        | nil => rw [hg] at hi; cases hi
        | cons x xs => rw [hg] at hi; cases hi; exact ⟨xs,rfl⟩
      have hfirst : demand p [] = .error .blocked := by
        have h0 := h.asked 0 (by rw [hgot]; exact Nat.zero_lt_succ _)
        exact h0
      refine .inr ⟨e,hnil,?_,hfailed,hfirst⟩
      -- the call that got the empty block failed, so it asked for no other
      cases rest with
      | nil => exact hgot
      | cons x xs =>
        have h1 := h.asked 1 (by rw [hgot]; simp)
        have hone : demand p ([] ++ [e]) = .error .blocked := by
          rw [hgot] at h1
          exact h1
        rw [demand_emptied hp hnil,hfirst] at hone
        cases hone
  · have hne : ∀ b ∈ s.got, b.1 ≠ [] := fun b hb hnil => hempty ⟨b,hb,hnil⟩
    refine .inl ⟨?_,hne⟩
    apply List.ext_getElem?
    intro i
    by_cases hi : i < s.got.length
    · rw [List.getElem?_take_of_lt hi,List.getElem?_eq_getElem hi]
      obtain ⟨_,⟨_,hget⟩ | ⟨hnil,_⟩⟩ := h.delivering.got i _ (List.getElem?_eq_getElem hi)
      · exact hget.symm
      · exact absurd hnil (hne _ (List.getElem_mem hi))
    · rw [List.getElem?_eq_none (by omega),List.getElem?_eq_none]
      exact Nat.le_trans (List.length_take_le _ _) (Nat.le_of_not_lt hi)

theorem feed_starts {got : List Block} (hgot : got = (decompressed dp stream).take got.length)
    (hne : ∀ b ∈ got, b.1 ≠ []) :
    ((streamSource dp).feed stream).blocks =
      got ++ ((decompressed dp stream).drop got.length).takeWhile (fun b => !b.1.isEmpty) := by
  have hall : ∀ b ∈ got, (fun b : Block => !b.1.isEmpty) b = true := by
    intro b hb
    simp [hne b hb]
  rw [(feed_decompressed dp stream).1]
  conv_lhs => rw [← List.take_append_drop got.length (decompressed dp stream),← hgot]
  exact List.takeWhile_append_of_pos hall

theorem ReaderInv.values (h : ReaderInv dp p stream s) (hp : p.Asks GetOp.Sized) :
    ∃ later, p.answers (blockCompressReader (streamSource dp)) (.start stream) =
      returnedValues p s.got ++ later := by
  have hprefix : ∀ got : List Block, got = (decompressed dp stream).take got.length →
      (∀ b ∈ got, b.1 ≠ []) →
      ∃ later, p.answers (cursor feedSource) (Cursor.start ((streamSource dp).feed stream)) =
        returnedValues p got ++ later := by
    intro got hgot hne
    have hf := returnedValues_grow p got
      (((decompressed dp stream).drop got.length).takeWhile (fun b => !b.1.isEmpty))
      ((streamSource dp).feed stream).stop
    rw [← feed_starts hgot hne] at hf
    exact hf
  rw [answers_unroll]
  rcases h.got_cases hp with ⟨hgot,hne⟩ | ⟨e,he,hgot,_,_⟩
  · exact hprefix s.got hgot hne
  · have hv : returnedValues p ([] ++ [e]) = _ := returnedValues_emptied hp he
    rw [List.nil_append] at hv
    rw [hgot,hv]
    exact hprefix [] rfl (by simp)

def ReaderPhase.Reports (phase : ReaderPhase α) (cause : Cause) : Prop :=
  phase = .cleanup cause ∨ phase = .waiting cause ∨ phase = .thrown cause

theorem ReaderInv.reason (h : ReaderInv dp p stream s) {cause : Cause}
    (hr : s.phase.Reports cause) : Reason dp p stream s cause := by
  have hp := h.placed
  rcases hr with hr | hr | hr
  · rw [Placed,hr] at hp
    exact hp
  · rw [Placed,hr] at hp
    exact hp
  · rw [Placed,hr] at hp
    exact hp.1

theorem ReaderInv.endOfFile (h : ReaderInv dp p stream s) (hp : p.Asks GetOp.Sized)
    (hr : s.phase.Reports .endOfFile) : s.sourceOn = false ∧
      s.blocksToProcess = (zblocks stream).length ∧ s.got = decompressed dp stream := by
  obtain ⟨hasks,heof,hcount⟩ := h.reason hr
  obtain ⟨hoff,hall⟩ := h.flagged.endOfFile heof
  refine ⟨hoff,hall,?_⟩
  rcases h.got_cases hp with ⟨hgot,_⟩ | ⟨e,he,hgot,_,hfirst⟩
  · rw [hgot,List.take_of_length_le]
    rw [decompressed,List.length_map]
    omega
  · have hd : demand p ([] ++ [e]) = _ := demand_emptied hp he
    rw [List.nil_append,hfirst,← hgot,hasks] at hd
    cases hd

/-- The pipeline under every interleaving: blocks arrive in file order; the end of the file
is reported only behind the last of them; a call that receives the block of a failed task
fails, and no earlier call returned anything but what lies in the stream. -/
theorem read_pipeline_safety (hp : p.Asks GetOp.Sized)
    (run : ReaderRuns dp p resets stream s) :
    (s.failed = false → s.got = (decompressed dp stream).take s.got.length) ∧
      (s.phase.Reports .endOfFile → s.sourceOn = false ∧
        s.blocksToProcess = (zblocks stream).length ∧ s.got = decompressed dp stream) ∧
      ((∃ e ∈ s.got, e.1 = []) → s.failed = true ∧ demand p s.got = .error corrupted) ∧
      ∃ later, p.answers (blockCompressReader (streamSource dp)) (.start stream) =
        returnedValues p s.got ++ later := by
  have h := ReaderInv.run run
  refine ⟨fun hf => ?_,fun hr => h.endOfFile hp hr,?_,h.values hp⟩
  · rcases h.got_cases hp with ⟨hgot,_⟩ | ⟨_,_,_,hfailed,_⟩
    · exact hgot
    · rw [hf] at hfailed
      cases hfailed
  · rintro ⟨e,he,hnil⟩
    rcases h.got_cases hp with ⟨_,hne⟩ | ⟨x,hx,hgot,hfailed,hfirst⟩
    · exact absurd hnil (hne e he)
    · refine ⟨hfailed,?_⟩
      have hd : demand p ([] ++ [x]) = _ := demand_emptied hp hx
      rw [List.nil_append,hfirst] at hd
      rw [hgot,hd]
      rfl

end

/-- The blocks of a list of two, decompressed last to first and handed over in file order. -/
theorem read_pipeline_safety_overtaken :
    ∃ (stream : Bytes) (m s : ReaderPipeline Object),
      ReaderRuns storedDecompressor (streamRead 2) true stream m ∧
      m.outbox.map Prod.fst = [2,1,0] ∧
      Runs (ReaderStep storedDecompressor (streamRead 2) true) m s ∧
      s.phase = .returned (.list [.nil,.nil] []) ∧
      s.got = (decompressed storedDecompressor stream).take 3 := by
  obtain ⟨list,hlist⟩ : ∃ z, z = storedCompressor 0 [listHeader5 ||| 2] := ⟨_,rfl⟩
  obtain ⟨nil,hnil⟩ : ∃ z, z = storedCompressor 0 [nilHeader] := ⟨_,rfl⟩
  obtain ⟨a,ha⟩ : ∃ a : Block, a = ⟨[listHeader5 ||| 2],by decide⟩ := ⟨_,rfl⟩
  obtain ⟨b,hb⟩ : ∃ b : Block, b = ⟨[nilHeader],by decide⟩ := ⟨_,rfl⟩
  obtain ⟨q,hq⟩ : ∃ q, q = ((Sequencer.empty.put 2 b).put 1 b).put 0 a := ⟨_,rfl⟩
  have hfirst : storedDecompressor.decompress list.bytes list.zsize = a := by
    rw [hlist,ha]
    decide
  have hlater : storedDecompressor.decompress nil.bytes nil.zsize = b := by
    rw [hnil,hb]
    decide
  have hsome : a.1 ≠ [] ∧ b.1 ≠ [] := by
    rw [ha,hb]
    decide
  have read : ReaderRuns storedDecompressor (streamRead 2) true
      (list.emit ++ (nil.emit ++ (nil.emit ++ []))) ⟨[],true,false,3,[(0,⟨list.zsize,list.bytes⟩),
        (1,⟨nil.zsize,nil.bytes⟩),(2,⟨nil.zsize,nil.bytes⟩)],[],.empty,false,false,0,[],.running⟩ :=
    .head (.read rfl (readZblock_emit list _)) (.head (.read rfl (readZblock_emit nil _))
      (.single (.read rfl (readZblock_emit nil []))))
  have decompressed : ReaderRuns storedDecompressor (streamRead 2) true
      (list.emit ++ (nil.emit ++ (nil.emit ++ []))) ⟨[],true,false,3,[],[(2,b),(1,b),(0,a)],
        .empty,false,false,0,[],.running⟩ := by
    rw [← hfirst,← hlater] at hsome ⊢
    have last := read.tail (.decompress [_,_] [] rfl hsome.2)
    have second := last.tail (.decompress [_] [] rfl hsome.2)
    have first := second.tail (.decompress [] [] rfl hsome.1)
    exact first
  have sequenced : Runs (ReaderStep storedDecompressor (streamRead 2) true)
      ⟨[],true,false,3,[],[(2,b),(1,b),(0,a)],.empty,false,false,0,[],.running⟩
      ⟨[],false,true,3,[],[],q,false,false,0,[],.running⟩ := by
    rw [hq]
    exact .head (.readEnd rfl (.inl rfl)) (.head (.sequence [] [_,_] rfl)
      (.head (.sequence [] [_] rfl) (.single (.sequence [] [] rfl))))
  have taken : Runs (ReaderStep storedDecompressor (streamRead 2) true)
      ⟨[],false,true,3,[],[],q,false,false,0,[],.running⟩
      ⟨[],false,true,3,[],[],q.release.release.release,false,false,3,[a,b,b],.running⟩ := by
    have hnext : q.next = some a ∧ q.release.next = some b ∧ q.release.release.next = some b := by
      rw [hq]
      exact ⟨rfl,rfl,rfl⟩
    have hasks : demand (streamRead 2) [] = .error .blocked ∧
        demand (streamRead 2) [a] = .error .blocked ∧
        demand (streamRead 2) [a,b] = .error .blocked := by
      rw [ha,hb]
      exact ⟨rfl,rfl,rfl⟩
    exact .head (.take rfl hasks.1 hnext.1) (.head (.take rfl hasks.2.1 hnext.2.1)
      (.single (.take rfl hasks.2.2 hnext.2.2)))
  have returned : Runs (ReaderStep storedDecompressor (streamRead 2) true)
      ⟨[],false,true,3,[],[],q.release.release.release,false,false,3,[a,b,b],.running⟩
      ⟨[],false,true,3,[],[],q.release.release.release,false,false,3,[a,b,b],
        .returned (.list [.nil,.nil] [])⟩ := by
    have hread : demand (streamRead 2) [a,b,b] = .ok (.list [.nil,.nil] []) := by
      rw [ha,hb]
      rfl
    exact .head (.done rfl hread) (.single (.finish rfl ⟨rfl,rfl,rfl⟩))
  have delivered := sequenced.trans (taken.trans returned)
  exact ⟨_,_,_,decompressed,rfl,delivered,rfl,
    (read_pipeline_safety (streamRead_sized 2) (decompressed.trans delivered)).1 rfl⟩

end QData
