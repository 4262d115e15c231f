import QData.ReaderProgress
import QData.Lib.Systems
/-! The polling loop of the multithreaded reader ends: apart from its polls a run has few
steps, and a run that never ends leaves a node of the graph alone that has work. -/
set_option autoImplicit false

namespace QData
open Words Requests Systems Sequencing

def ReaderPhase.Polling {α : Type} : ReaderPhase α → Prop
  | .running | .loadEnd | .loadCount | .loadCancelled => True
  | _ => False

/-- A step of the loop of `get_new_block` that finds neither a block nor a reason to leave. -/
def Polls {α : Type} (s t : ReaderPipeline α) : Prop :=
  s.phase.Polling ∧ t.phase.Polling ∧ t = { s with phase := t.phase }

def ReaderPhase.ahead {α : Type} : ReaderPhase α → Nat
  | .running | .loadEnd | .loadCount | .loadCancelled => 3
  | .cleanup _ => 2
  | .waiting _ | .finishing _ => 1
  | .returned _ | .thrown _ | .escaped _ => 0

theorem ReaderPhase.Polling.ahead {α : Type} {phase : ReaderPhase α} (h : phase.Polling) :
    phase.ahead = 3 := by
  cases phase <;> first | rfl | cases h

section
variable {α : Type} (dp : Decompressor) (p : Reader α) (resets : Bool)

/-- A step of the source or of a task: the consuming thread stays where it is. -/
def NodeStep (s t : ReaderPipeline α) : Prop :=
  ReaderStep dp p resets s t ∧ t.phase = s.phase ∧ t.got = s.got

end

/-- A bound on the steps of a run that are no polls. -/
def ReaderPipeline.progress {α : Type} (s : ReaderPipeline α) : Nat := 4*s.work+s.phase.ahead

section
variable {α : Type} {dp : Decompressor} {p : Reader α} {resets : Bool} {stream : Bytes}
  {s t : ReaderPipeline α}

theorem ReaderInv.take_work (h : ReaderInv dp p stream s) {b : Block}
    (next : s.sequencer.next = some b) {sequencer : Sequencer Block} {got : List Block} :
    ({ s with sequencer := sequencer, blocksProcessed := s.blocksProcessed+1, got := got } :
      ReaderPipeline α).work < s.work := by
  have hlt := (h.delivering.sequenced _ _ next).1
  rw [h.delivering.head,← h.delivering.processed] at hlt
  simp only [ReaderPipeline.work]
  omega

theorem polls_or_leaves {phase : ReaderPhase α} (hs : s.phase.Polling) (hne : phase ≠ s.phase) :
    phase ≠ s.phase ∧ ({ s with phase := phase } : ReaderPipeline α).work = s.work ∧
      (Polls s { s with phase := phase } ∨ phase.ahead < s.phase.ahead) := by
  refine ⟨hne,rfl,?_⟩
  by_cases h : phase.Polling
  · exact .inl ⟨hs,h,rfl⟩
  · refine .inr ?_
    rw [hs.ahead]
    cases phase <;> simp [ReaderPhase.Polling] at h <;> simp [ReaderPhase.ahead]

/-- Either there is less to do after a step, or it takes the consuming thread further. -/
theorem ReaderInv.step_kinds (h : ReaderInv dp p stream s) (hstep : ReaderStep dp p resets s t) :
    (t.phase = s.phase ∧ t.work < s.work) ∨
      (t.phase ≠ s.phase ∧ t.work = s.work ∧ (Polls s t ∨ t.phase.ahead < s.phase.ahead)) := by
  cases hstep with
  | read on next =>
    refine .inl ⟨rfl,?_⟩
    have hlt := readZblock_rest next
    simp only [ReaderPipeline.work,List.length_append,List.length_cons,List.length_nil]
    omega
  | readEnd on next => exact .inl ⟨rfl,by simp [ReaderPipeline.work,on]⟩
  | readOversized on next => exact .inl ⟨rfl,by simp [ReaderPipeline.work,on]⟩
  | decompress before after task ok =>
    refine .inl ⟨rfl,?_⟩
    simp only [ReaderPipeline.work,task,List.length_append,List.length_cons,List.length_nil]
    omega
  | decompressError before after task error =>
    refine .inl ⟨rfl,?_⟩
    simp only [ReaderPipeline.work,task,List.length_append,List.length_cons,List.length_nil]
    omega
  | sequence before after item =>
    refine .inl ⟨rfl,?_⟩
    simp only [ReaderPipeline.work,item,List.length_append,List.length_cons]
    omega
  | dropSource on cancelled => exact .inl ⟨rfl,by simp [ReaderPipeline.work,on]⟩
  | dropTask before after task cancelled =>
    refine .inl ⟨rfl,?_⟩
    simp only [ReaderPipeline.work,task,List.length_append,List.length_cons]
    omega
  | dropBlock before after item cancelled =>
    refine .inl ⟨rfl,?_⟩
    simp only [ReaderPipeline.work,item,List.length_append,List.length_cons]
    omega
  | take running asks next => exact .inl ⟨rfl,h.take_work next⟩
  | miss running asks next =>
    refine .inr (polls_or_leaves (by rw [running]; trivial) ?_)
    rw [running]
    intro h
    cases h
  | loadEnd loading =>
    refine .inr (polls_or_leaves (by rw [loading]; trivial) ?_)
    rw [loading]
    split <;> intro h <;> cases h
  | loadCount loading =>
    refine .inr (polls_or_leaves (by rw [loading]; trivial) ?_)
    rw [loading]
    split <;> intro h <;> cases h
  | loadCancelled loading =>
    refine .inr (polls_or_leaves (by rw [loading]; trivial) ?_)
    rw [loading]
    split <;> intro h <;> cases h
  | cleanupAndThrow running error =>
    refine .inr (polls_or_leaves (by rw [running]; trivial) ?_)
    rw [running]
    intro h
    cases h
  | throw running error =>
    refine .inr (polls_or_leaves (by rw [running]; trivial) ?_)
    rw [running]
    intro h
    cases h
  | done running ok =>
    refine .inr (polls_or_leaves (by rw [running]; trivial) ?_)
    rw [running]
    intro h
    cases h
  | cancel leaving =>
    refine .inr ⟨?_,rfl,.inr ?_⟩
    · rw [leaving]
      intro h
      cases h
    · rw [leaving]
      exact Nat.lt_succ_self 1
  | wait waiting idle =>
    refine .inr ⟨?_,rfl,.inr ?_⟩
    · rw [waiting]
      intro h
      cases h
    · rw [waiting]
      exact Nat.zero_lt_one
  | finish finishing idle =>
    refine .inr ⟨?_,rfl,.inr ?_⟩
    · rw [finishing]
      split <;> intro h <;> cases h
    · rw [finishing]
      split <;> exact Nat.zero_lt_one

theorem ReaderInv.polls_or (h : ReaderInv dp p stream s) (hstep : ReaderStep dp p resets s t) :
    (Polls s t ∧ t.progress = s.progress) ∨ t.progress < s.progress := by
  simp only [ReaderPipeline.progress]
  rcases h.step_kinds hstep with ⟨hphase,hlt⟩ | ⟨_,hwork,hpolls | hlt⟩
  · rw [hphase]
    omega
  · exact .inl ⟨hpolls,by rw [hwork,hpolls.1.ahead,hpolls.2.1.ahead]⟩
  · omega

theorem ReaderInv.node_progress (h : ReaderInv dp p stream s) (hstep : NodeStep dp p resets s t) :
    t.progress < s.progress := by
  rcases h.step_kinds hstep.1 with ⟨hphase,hlt⟩ | ⟨hne,_⟩
  · simp only [ReaderPipeline.progress,hphase]
    omega
  · exact absurd hstep.2.1 hne

theorem ReaderInv.idle_step (h : ReaderInv dp p stream s) (hstep : ReaderStep dp p resets s t)
    (idle : s.Idle) : t.Idle ∧ t.weight < s.weight := by
  have hstop := h.flagged.stopped idle.1
  obtain ⟨hoff,htasks,houtbox⟩ := idle
  have hbusy : ∀ {before after : List (Nat × Zbytes)} {x}, s.tasks ≠ before ++ x :: after :=
    fun h => taken_ne_nil h htasks
  have hbusy' : ∀ {before after : List (Nat × Block)} {x}, s.outbox ≠ before ++ x :: after :=
    fun h => taken_ne_nil h houtbox
  cases hstep with
  | read on next =>
    rw [hoff] at on
    cases on
  | readEnd on next =>
    rw [hoff] at on
    cases on
  | readOversized on next =>
    rw [hoff] at on
    cases on
  | decompress before after task ok => exact absurd task hbusy
  | decompressError before after task error => exact absurd task hbusy
  | sequence before after item => exact absurd item hbusy'
  | dropSource on cancelled =>
    rw [hoff] at on
    cases on
  | dropTask before after task cancelled => exact absurd task hbusy
  | dropBlock before after item cancelled => exact absurd item hbusy'
  | take running asks next =>
    exact ⟨⟨hoff,htasks,houtbox⟩,weight_lt_of_work (h.take_work next)⟩
  | miss running asks next =>
    refine ⟨⟨hoff,htasks,houtbox⟩,weight_lt_of_rank ?_⟩
    rw [running,next]
    simp [ReaderPhase.rank]
  | loadEnd loading =>
    refine ⟨⟨hoff,htasks,houtbox⟩,weight_lt_of_rank ?_⟩
    rw [loading]
    rcases hstop with heof | hc
    · rw [if_pos heof]
      simp only [ReaderPhase.rank]
      split <;> omega
    · rw [hc]
      split <;> simp [ReaderPhase.rank]
  | loadCount loading =>
    refine ⟨⟨hoff,htasks,houtbox⟩,weight_lt_of_rank ?_⟩
    rw [loading]
    by_cases hcount : s.blocksProcessed ≥ s.blocksToProcess
    · rw [if_pos hcount]
      simp only [ReaderPhase.rank]
      split <;> omega
    · rw [if_neg hcount]
      cases hc : s.cancelled with
      | true => simp [ReaderPhase.rank]
      | false => simp [ReaderPhase.rank,h.arrived ⟨hoff,htasks,houtbox⟩ hc (by omega)]
  | loadCancelled loading =>
    refine ⟨⟨hoff,htasks,houtbox⟩,weight_lt_of_rank ?_⟩
    rw [loading]
    cases hc : s.cancelled with
    | true => simp [ReaderPhase.rank]
    | false => cases hnext : s.sequencer.next.isSome <;> simp [ReaderPhase.rank]
  | cleanupAndThrow running error =>
    refine ⟨⟨hoff,htasks,houtbox⟩,weight_lt_of_rank ?_⟩
    rw [running]
    simp only [ReaderPhase.rank]
    split <;> omega
  | throw running error =>
    refine ⟨⟨hoff,htasks,houtbox⟩,weight_lt_of_rank ?_⟩
    rw [running]
    simp only [ReaderPhase.rank]
    split <;> omega
  | done running ok =>
    refine ⟨⟨hoff,htasks,houtbox⟩,weight_lt_of_rank ?_⟩
    rw [running]
    simp only [ReaderPhase.rank]
    split <;> omega
  | cancel leaving =>
    refine ⟨⟨hoff,htasks,houtbox⟩,?_⟩
    simp only [ReaderPipeline.weight,ReaderPipeline.work,leaving,ReaderPhase.rank]
    omega
  | wait waiting idle =>
    refine ⟨idle,weight_lt_of_rank ?_⟩
    rw [waiting]
    exact Nat.zero_lt_one
  | finish finishing idle =>
    refine ⟨idle,weight_lt_of_rank ?_⟩
    rw [finishing]
    split <;> exact Nat.zero_lt_one

/-- The multithreaded reader does not go on forever. Of the steps of a run all but the polls
are bounded by the length of the stream, in every schedule; an endless run leaves the nodes
alone with work they have; and a run without a next step has left the reader with the graph
at rest. -/
theorem reader_ends (dp : Decompressor) (p : Reader α) (resets : Bool) (stream : Bytes) :
    (∀ k s, Counted (ReaderStep dp p resets) Polls k { stream := stream } s →
      k ≤ 20*stream.length+7) ∧
    (∀ run : Nat → ReaderPipeline α, run 0 = { stream := stream } →
      Endless (ReaderStep dp p resets) run →
      ¬ Fair (fun s => ¬ s.Idle) (NodeStep dp p resets) run) ∧
    ∀ s, ReaderRuns dp p resets stream s → (∀ t, ¬ ReaderStep dp p resets s t) →
      s.phase.Exited ∧ s.Idle := by
  have keeps : ∀ s t, ReaderInv dp p stream s → ReaderStep dp p resets s t →
      ReaderInv dp p stream t := fun _ _ h hs => h.step hs
  have moves : ∀ s t, ReaderInv dp p stream s → ReaderStep dp p resets s t →
      (Polls s t ∧ t.progress = s.progress) ∨ t.progress < s.progress :=
    fun _ _ h hs => h.polls_or hs
  have hstart := ReaderInv.start dp p stream
  refine ⟨fun k s run => ?_,fun run h0 endless => ?_,fun s run hstuck => ⟨?_,?_⟩⟩
  · have hpaid := run.paid keeps moves hstart
    simp only [ReaderPipeline.progress,ReaderPipeline.work,ReaderPhase.ahead] at hpaid
    simp only [if_true,List.length_nil] at hpaid
    omega
  · refine not_fair keeps moves ReaderPipeline.weight (fun _ _ h hs => h.node_progress hs)
      (fun s t h hs idle => ?_) (h0 ▸ hstart) endless
    obtain ⟨hidle,hlt⟩ := h.idle_step hs (Classical.not_not.mp idle)
    exact ⟨Classical.not_not.mpr hidle,hlt⟩
  · rcases (ReaderInv.run run).advances with h | ⟨t,ht,_⟩
    · exact h
    · exact absurd ht (hstuck t)
  · by_contra busy
    obtain ⟨t,ht,_⟩ := s.works busy
    exact hstuck t ht

end

end QData
