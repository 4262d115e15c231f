import QData.ReaderPipeline
/-! The multithreaded reader can always get to its end: while a node has work it may do it,
and once none has, the loop in `get_new_block` finds a block or a reason to stop. -/
set_option autoImplicit false

namespace QData
open Words Requests Systems Sequencing

section
variable {α : Type} {dp : Decompressor} {p : Reader α} {resets : Bool} {stream : Bytes}
  {s : ReaderPipeline α}

def ReaderPhase.Exited : ReaderPhase α → Prop
  | .returned _ | .thrown _ | .escaped _ => True
  | _ => False

/-- Steps of the consuming thread to its next block or its exit, when no node works. A
block that arrived behind its back sends it once more through the loop. -/
def ReaderPhase.rank (arrived cancelled : Bool) : ReaderPhase α → Nat
  | .loadEnd => if arrived && !cancelled then 6 else 5
  | .loadCount => if arrived && !cancelled then 5 else 4
  | .loadCancelled => if cancelled then 3 else if arrived then 4 else 7
  | .running => if arrived && !cancelled then 3 else 6
  | .cleanup _ => 2
  | .waiting _ | .finishing _ => 1
  | .returned _ | .thrown _ | .escaped _ => 0

theorem ReaderPhase.rank_le (arrived cancelled : Bool) (phase : ReaderPhase α) :
    phase.rank arrived cancelled ≤ 7 := by
  cases phase <;> cases arrived <;> cases cancelled <;> simp [ReaderPhase.rank]

def ReaderPipeline.work (s : ReaderPipeline α) : Nat :=
  5*s.stream.length + (if s.sourceOn then 1 else 0) + 3*s.tasks.length + 2*s.outbox.length +
    (s.blocksToProcess - s.blocksProcessed)

def ReaderPipeline.weight (s : ReaderPipeline α) : Nat :=
  8*s.work + s.phase.rank s.sequencer.next.isSome s.cancelled

theorem weight_lt_of_work {t : ReaderPipeline α} (h : t.work < s.work) : t.weight < s.weight := by
  have hr := t.phase.rank_le t.sequencer.next.isSome t.cancelled
  rw [ReaderPipeline.weight,ReaderPipeline.weight]
  omega

theorem ReaderPipeline.works (h : ¬ s.Idle) :
    ∃ t, ReaderStep dp p resets s t ∧ t.work < s.work := by
  cases hon : s.sourceOn with
  | true =>
    have hoff : ∀ t : ReaderPipeline α, t.stream = s.stream → t.sourceOn = false →
        t.tasks = s.tasks → t.outbox = s.outbox → t.blocksToProcess = s.blocksToProcess →
        t.blocksProcessed = s.blocksProcessed → t.work < s.work := by
      intro t h₁ h₂ h₃ h₄ h₅ h₆
      simp only [ReaderPipeline.work,h₁,h₂,h₃,h₄,h₅,h₆,hon,if_true,Bool.false_eq_true,if_false]
      omega
    cases hz : readZblock s.stream with
    | noSize => exact ⟨_,.readEnd hon (.inl hz),hoff _ rfl rfl rfl rfl rfl rfl⟩
    | truncated => exact ⟨_,.readEnd hon (.inr hz),hoff _ rfl rfl rfl rfl rfl rfl⟩
    | oversized => exact ⟨_,.readOversized hon hz,hoff _ rfl rfl rfl rfl rfl rfl⟩
    | zblock zsize zbytes rest =>
      refine ⟨_,.read hon hz,?_⟩
      have hlt := readZblock_rest hz
      simp only [ReaderPipeline.work,List.length_append,List.length_cons,List.length_nil]
      omega
  | false =>
  cases htasks : s.tasks with
  | cons t rest =>
    by_cases hnil : (dp.decompress t.2.bytes t.2.zsize).1 = []
    · refine ⟨_,.decompressError [] rest htasks hnil,?_⟩
      simp only [ReaderPipeline.work,htasks,List.nil_append,List.length_cons,List.length_append,
        List.length_nil]
      omega
    · refine ⟨_,.decompress [] rest htasks hnil,?_⟩
      simp only [ReaderPipeline.work,htasks,List.nil_append,List.length_cons,List.length_append,
        List.length_nil]
      omega
  | nil =>
  cases houtbox : s.outbox with
  | cons x rest =>
    refine ⟨_,.sequence [] rest houtbox,?_⟩
    simp only [ReaderPipeline.work,houtbox,List.nil_append,List.length_cons]
    omega
  | nil => exact absurd ⟨hon,htasks,houtbox⟩ h

theorem ReaderInv.arrived (h : ReaderInv dp p stream s) (idle : s.Idle)
    (hc : s.cancelled = false) (hlt : s.blocksProcessed < s.blocksToProcess) :
    s.sequencer.next.isSome = true := by
  obtain ⟨_,htasks,houtbox⟩ := idle
  rw [h.delivering.processed,← h.delivering.head] at hlt
  rcases h.delivering.covered hc _ hlt with hm | hm | hm | hm
  · rw [htasks] at hm
    cases hm
  · rw [houtbox] at hm
    cases hm
  · exact absurd hm (Nat.lt_irrefl _)
  · exact hm

theorem weight_lt_of_rank {phase : ReaderPhase α}
    (h : phase.rank s.sequencer.next.isSome s.cancelled <
      s.phase.rank s.sequencer.next.isSome s.cancelled) :
    ({ s with phase := phase } : ReaderPipeline α).weight < s.weight := by
  simp only [ReaderPipeline.weight,ReaderPipeline.work]
  omega

theorem ReaderInv.advances (h : ReaderInv dp p stream s) :
    s.phase.Exited ∨ ∃ t, ReaderStep dp p resets s t ∧ t.weight < s.weight := by
  by_cases idle : s.Idle
  swap
  · obtain ⟨t,ht,hlt⟩ : ∃ t, ReaderStep dp p resets s t ∧ _ := s.works idle
    exact .inr ⟨t,ht,weight_lt_of_work hlt⟩
  have hstop := h.flagged.stopped idle.1
  cases hphase : s.phase with
  | returned a => exact .inl trivial
  | thrown cause => exact .inl trivial
  | escaped msg => exact .inl trivial
  | waiting cause =>
    exact .inr ⟨_,.wait hphase idle,weight_lt_of_rank (by rw [hphase]; exact Nat.zero_lt_one)⟩
  | finishing a =>
    refine .inr ⟨_,.finish hphase idle,weight_lt_of_rank ?_⟩
    rw [hphase]
    split <;> exact Nat.zero_lt_one
  | cleanup cause =>
    refine .inr ⟨_,.cancel hphase,?_⟩
    simp only [ReaderPipeline.weight,ReaderPipeline.work,hphase,ReaderPhase.rank]
    omega
  | running =>
    cases hd : demand p s.got with
    | ok a =>
      refine .inr ⟨_,.done hphase hd,weight_lt_of_rank ?_⟩
      rw [hphase]
      simp only [ReaderPhase.rank]
      split <;> omega
    | error e =>
      cases e with
      | error e =>
        cases e with
        | cleanup msg =>
          refine .inr ⟨_,.cleanupAndThrow hphase hd,weight_lt_of_rank ?_⟩
          rw [hphase]
          simp only [ReaderPhase.rank]
          split <;> omega
        | direct msg =>
          refine .inr ⟨_,.throw hphase hd,weight_lt_of_rank ?_⟩
          rw [hphase]
          simp only [ReaderPhase.rank]
          split <;> omega
      | blocked =>
        cases hnext : s.sequencer.next with
        | none =>
          refine .inr ⟨_,.miss hphase hd hnext,weight_lt_of_rank ?_⟩
          rw [hphase,hnext]
          simp [ReaderPhase.rank]
        | some b =>
          refine .inr ⟨_,.take hphase hd hnext,weight_lt_of_work ?_⟩
          have hlt := (h.delivering.sequenced _ _ hnext).1
          rw [h.delivering.head,← h.delivering.processed] at hlt
          simp only [ReaderPipeline.work]
          omega
  | loadEnd =>
    refine .inr ⟨_,.loadEnd hphase,weight_lt_of_rank ?_⟩
    rw [hphase]
    rcases hstop with heof | hc
    · rw [if_pos heof]
      simp only [ReaderPhase.rank]
      split <;> omega
    · rw [hc]
      split <;> simp [ReaderPhase.rank]
  | loadCount =>
    refine .inr ⟨_,.loadCount hphase,weight_lt_of_rank ?_⟩
    rw [hphase]
    by_cases hcount : s.blocksProcessed ≥ s.blocksToProcess
    · rw [if_pos hcount]
      simp only [ReaderPhase.rank]
      split <;> omega
    · rw [if_neg hcount]
      cases hc : s.cancelled with
      | true => simp [ReaderPhase.rank]
      | false => simp [ReaderPhase.rank,h.arrived idle hc (by omega)]
  | loadCancelled =>
    refine .inr ⟨_,.loadCancelled hphase,weight_lt_of_rank ?_⟩
    rw [hphase]
    cases hc : s.cancelled with
    | true => simp [ReaderPhase.rank]
    | false =>
      cases hnext : s.sequencer.next.isSome <;> simp [ReaderPhase.rank]

/-- From every state that a run reaches, the consuming thread can still leave. -/
theorem ReaderRuns.exits (run : ReaderRuns dp p resets stream s) :
    ∃ t, Runs (ReaderStep dp p resets) s t ∧ t.phase.Exited :=
  finishes (I := ReaderInv dp p stream) ReaderPipeline.weight (fun _ _ h hs => h.step hs)
    (fun _ h => h.advances) (ReaderInv.run run)

end

end QData
