import QData.Handover
import QData.Lib.Systems
/-! The multithreaded block reader: a source that runs ahead to the end of the stream,
decompression tasks that finish in any order, a sequencer, and the thread that asks for
blocks and polls the shared flags. -/
set_option autoImplicit false

namespace QData
open Words Requests Systems Sequencing

/-! The compressed blocks that lie in a stream, whether they decompress or not. -/

structure Zbytes where
  zsize : Nat
  bytes : Bytes
  deriving DecidableEq, Repr

def zblocks (stream : Bytes) : List Zbytes :=
  match _h : readZblock stream with
  | .zblock zsize zbytes rest => ⟨zsize,zbytes⟩ :: zblocks rest
  | _ => []
termination_by stream.length
decreasing_by exact readZblock_rest _h

def streamEnd (stream : Bytes) : Zblock :=
  match _h : readZblock stream with
  | .zblock _ _ rest => streamEnd rest
  | z => z
termination_by stream.length
decreasing_by exact readZblock_rest _h

theorem zblocks_cons {stream zbytes rest : Bytes} {zsize : Nat}
    (h : readZblock stream = .zblock zsize zbytes rest) :
    zblocks stream = ⟨zsize,zbytes⟩ :: zblocks rest ∧ streamEnd stream = streamEnd rest := by
  constructor
  · rw [zblocks]
    split
    · next h' => rw [h] at h'; cases h'; rfl
    · next h' => exact absurd h (h' _ _ _)
  · rw [streamEnd]
    split
    · next h' => rw [h] at h'; cases h'; rfl
    · next h' => exact absurd h (h' _ _ _)

theorem zblocks_end {stream : Bytes} (h : ∀ zsize zbytes rest,
    readZblock stream ≠ .zblock zsize zbytes rest) :
    zblocks stream = [] ∧ streamEnd stream = readZblock stream := by
  constructor
  · rw [zblocks]
    split
    · next h' => exact absurd h' (h _ _ _)
    · rfl
  · rw [streamEnd]
    split
    · next h' => exact absurd h' (h _ _ _)
    · rfl

/-- All blocks of a stream in file order, an empty one where decompression fails. -/
def decompressed (dp : Decompressor) (stream : Bytes) : List Block :=
  (zblocks stream).map fun z => dp.decompress z.bytes z.zsize

/-- The single-threaded reader gets the blocks before the first that fails. -/
theorem feed_decompressed (dp : Decompressor) (stream : Bytes) :
    ((streamSource dp).feed stream).blocks =
        (decompressed dp stream).takeWhile (fun b => !b.1.isEmpty) ∧
      ∃ msg, ((streamSource dp).feed stream).stop = cleanupHalt msg := by
  induction hn : stream.length using Nat.strongRecOn generalizing stream with
  | ind n ih =>
    have hend : ∀ msg, (streamSource dp).fetch stream = .error (cleanupHalt msg) →
        (zblocks stream = []) →
        ((streamSource dp).feed stream).blocks =
            (decompressed dp stream).takeWhile (fun b => !b.1.isEmpty) ∧
          ∃ msg, ((streamSource dp).feed stream).stop = cleanupHalt msg := by
      intro msg hf hz
      rw [BlockSource.feed_error hf,decompressed,hz]
      exact ⟨rfl,msg,rfl⟩
    cases hz : readZblock stream with
    | noSize =>
      exact hend _ (by simp only [streamSource,decompressNext,hz]; rfl)
        (zblocks_end (by simp [hz])).1
    | oversized =>
      exact hend _ (by simp only [streamSource,decompressNext,hz]; rfl)
        (zblocks_end (by simp [hz])).1
    | truncated =>
      exact hend _ (by simp only [streamSource,decompressNext,hz]; rfl)
        (zblocks_end (by simp [hz])).1
    | zblock zsize zbytes rest =>
      have hcons : decompressed dp stream =
          dp.decompress zbytes zsize :: decompressed dp rest := by
        rw [decompressed,(zblocks_cons hz).1]
        rfl
      by_cases hnil : (dp.decompress zbytes zsize).1 = []
      · have hf : (streamSource dp).fetch stream =
            .error (cleanupHalt "Decompression error") := by
          simp only [streamSource,decompressNext,hz]
          rw [if_pos hnil]
        rw [BlockSource.feed_error hf,hcons,List.takeWhile_cons,hnil]
        exact ⟨rfl,_,rfl⟩
      · have hf : (streamSource dp).fetch stream = .ok (dp.decompress zbytes zsize,rest) := by
          simp only [streamSource,decompressNext,hz]
          rw [if_neg hnil]
        obtain ⟨hb,hs⟩ := ih rest.length (hn ▸ readZblock_rest hz) rest rfl
        rw [BlockSource.feed_ok hf,hcons,List.takeWhile_cons]
        refine ⟨?_,hs⟩
        rw [if_pos (by simp [hnil])]
        exact congrArg _ hb

/-- Why a block reader winds itself down: the two reports of `get_new_block`, "Unexpected end
of file" and "File read / decompression error", or a message of the code that calls it. -/
inductive Cause where
  | endOfFile : Cause
  | broken : Cause
  | reader : String → Cause
  deriving DecidableEq, Repr

/-- Where the consuming thread is: between calls or in `try_get`; at one of the three loads
that follow a `try_get` in vain; in `cleanup()` or `finish()`; or gone, by returning, by
an exception after a wait, or by one thrown past the reader. -/
inductive ReaderPhase (α : Type) where
  | running : ReaderPhase α
  | loadEnd : ReaderPhase α
  | loadCount : ReaderPhase α
  | loadCancelled : ReaderPhase α
  | cleanup : Cause → ReaderPhase α
  | waiting : Cause → ReaderPhase α
  | finishing : α → ReaderPhase α
  | returned : α → ReaderPhase α
  | thrown : Cause → ReaderPhase α
  | escaped : String → ReaderPhase α

/-- The reader with its nodes. `failed` records that some decompression has failed. -/
structure ReaderPipeline (α : Type) where
  stream : Bytes
  sourceOn : Bool := true
  endOfFile : Bool := false
  blocksToProcess : Nat := 0
  tasks : List (Nat × Zbytes) := []
  outbox : List (Nat × Block) := []
  sequencer : Sequencer Block := .empty
  cancelled : Bool := false
  failed : Bool := false
  blocksProcessed : Nat := 0
  got : List Block := []
  phase : ReaderPhase α := .running

def ReaderPipeline.Idle {α : Type} (s : ReaderPipeline α) : Prop :=
  s.sourceOn = false ∧ s.tasks = [] ∧ s.outbox = []

section
variable {α : Type} (dp : Decompressor) (p : Reader α) (resets : Bool)

/-- One step of the source, of a task, or of the consuming thread. A cancelled group may
drop what has not started. `resets` says whether `wait_for_all` clears the cancellation of
the group, as it does in the library's default mode. -/
inductive ReaderStep : ReaderPipeline α → ReaderPipeline α → Prop
  | read {s : ReaderPipeline α} {zsize : Nat} {zbytes rest : Bytes} (on : s.sourceOn = true)
      (next : readZblock s.stream = .zblock zsize zbytes rest) :
      ReaderStep s { s with
        stream := rest
        blocksToProcess := s.blocksToProcess+1
        tasks := s.tasks ++ [(s.blocksToProcess,⟨zsize,zbytes⟩)] }
  | readEnd {s : ReaderPipeline α} (on : s.sourceOn = true)
      (next : readZblock s.stream = .noSize ∨ readZblock s.stream = .truncated) :
      ReaderStep s { s with sourceOn := false, endOfFile := true }
  | readOversized {s : ReaderPipeline α} (on : s.sourceOn = true)
      (next : readZblock s.stream = .oversized) :
      ReaderStep s { s with sourceOn := false, cancelled := true }
  | decompress {s : ReaderPipeline α} (before after : List (Nat × Zbytes)) {tag : Nat}
      {z : Zbytes} (task : s.tasks = before ++ (tag,z) :: after)
      (ok : (dp.decompress z.bytes z.zsize).1 ≠ []) :
      ReaderStep s { s with
        tasks := before ++ after
        outbox := s.outbox ++ [(tag,dp.decompress z.bytes z.zsize)] }
  | decompressError {s : ReaderPipeline α} (before after : List (Nat × Zbytes)) {tag : Nat}
      {z : Zbytes} (task : s.tasks = before ++ (tag,z) :: after)
      (error : (dp.decompress z.bytes z.zsize).1 = []) :
      -- the block goes out with the number it was constructed with
      ReaderStep s { s with
        tasks := before ++ after
        outbox := s.outbox ++ [(0,dp.decompress z.bytes z.zsize)]
        cancelled := true
        failed := true }
  | sequence {s : ReaderPipeline α} (before after : List (Nat × Block)) {tag : Nat}
      {b : Block} (item : s.outbox = before ++ (tag,b) :: after) :
      ReaderStep s { s with outbox := before ++ after, sequencer := s.sequencer.put tag b }
  | dropSource {s : ReaderPipeline α} (on : s.sourceOn = true)
      (cancelled : s.cancelled = true) :
      ReaderStep s { s with sourceOn := false }
  | dropTask {s : ReaderPipeline α} (before after : List (Nat × Zbytes)) {t : Nat × Zbytes}
      (task : s.tasks = before ++ t :: after) (cancelled : s.cancelled = true) :
      ReaderStep s { s with tasks := before ++ after }
  | dropBlock {s : ReaderPipeline α} (before after : List (Nat × Block)) {x : Nat × Block}
      (item : s.outbox = before ++ x :: after) (cancelled : s.cancelled = true) :
      ReaderStep s { s with outbox := before ++ after }
  | take {s : ReaderPipeline α} {b : Block} (running : s.phase = .running)
      (asks : demand p s.got = .error .blocked) (next : s.sequencer.next = some b) :
      ReaderStep s { s with
        sequencer := s.sequencer.release
        blocksProcessed := s.blocksProcessed+1
        got := s.got ++ [b] }
  | miss {s : ReaderPipeline α} (running : s.phase = .running)
      (asks : demand p s.got = .error .blocked) (next : s.sequencer.next = none) :
      ReaderStep s { s with phase := .loadEnd }
  | loadEnd {s : ReaderPipeline α} (loading : s.phase = .loadEnd) :
      ReaderStep s { s with
        phase := if s.endOfFile then .loadCount else .loadCancelled }
  | loadCount {s : ReaderPipeline α} (loading : s.phase = .loadCount) :
      ReaderStep s { s with
        phase := if s.blocksProcessed ≥ s.blocksToProcess then .cleanup .endOfFile
          else .loadCancelled }
  | loadCancelled {s : ReaderPipeline α} (loading : s.phase = .loadCancelled) :
      ReaderStep s { s with
        phase := if s.cancelled then .cleanup .broken else .running }
  | cleanupAndThrow {s : ReaderPipeline α} {msg : String} (running : s.phase = .running)
      (error : demand p s.got = .error (cleanupHalt msg)) :
      ReaderStep s { s with phase := .cleanup (.reader msg) }
  | throw {s : ReaderPipeline α} {msg : String} (running : s.phase = .running)
      (error : demand p s.got = .error (.error (.direct msg))) :
      ReaderStep s { s with phase := .escaped msg }
  | done {s : ReaderPipeline α} {a : α} (running : s.phase = .running)
      (ok : demand p s.got = .ok a) : ReaderStep s { s with phase := .finishing a }
  | cancel {s : ReaderPipeline α} {cause : Cause} (leaving : s.phase = .cleanup cause) :
      ReaderStep s { s with cancelled := true, phase := .waiting cause }
  | wait {s : ReaderPipeline α} {cause : Cause} (waiting : s.phase = .waiting cause)
      (idle : s.Idle) : ReaderStep s { s with phase := .thrown cause }
  | finish {s : ReaderPipeline α} {a : α} (finishing : s.phase = .finishing a)
      (idle : s.Idle) :
      ReaderStep s { s with
        phase := if s.cancelled && !resets then .thrown .broken else .returned a }

abbrev ReaderRuns (stream : Bytes) : ReaderPipeline α → Prop :=
  Runs (ReaderStep dp p resets) { stream := stream }

end

/-- What may travel under a number: the block that stands there in the stream, or the
empty block of a task that failed. -/
def Numbered (dp : Decompressor) (stream : Bytes) (count : Nat) (failed : Bool) (tag : Nat)
    (b : Block) : Prop :=
  tag < count ∧ ((b.1 ≠ [] ∧ (decompressed dp stream)[tag]? = some b) ∨
    (b.1 = [] ∧ tag = 0 ∧ failed = true))

theorem Numbered.mono {dp : Decompressor} {stream : Bytes} {m n : Nat} {f g : Bool} {tag : Nat}
    {b : Block} (h : Numbered dp stream m f tag b) (hn : m ≤ n) (hf : f = true → g = true) :
    Numbered dp stream n g tag b :=
  ⟨Nat.lt_of_lt_of_le h.1 hn,h.2.imp_right fun ⟨he,ht,h⟩ => ⟨he,ht,hf h⟩⟩

/-- Some block of the stream does not decompress, or one says that it is too large. -/
def Broken (dp : Decompressor) (stream : Bytes) : Prop :=
  (∃ b ∈ decompressed dp stream, b.1 = []) ∨ streamEnd stream = .oversized

section
variable {α : Type} {dp : Decompressor} {p : Reader α} {resets : Bool} {stream : Bytes}
  {s : ReaderPipeline α}

/-- How the nodes and the blocks handed over stand to the stream that was opened. -/
structure Delivering (dp : Decompressor) (stream : Bytes) (s : ReaderPipeline α) : Prop where
  count : s.blocksToProcess ≤ (zblocks stream).length
  ahead : zblocks s.stream = (zblocks stream).drop s.blocksToProcess
  ends : streamEnd s.stream = streamEnd stream
  tasks : ∀ t ∈ s.tasks, t.1 < s.blocksToProcess ∧ (zblocks stream)[t.1]? = some t.2
  outbox : ∀ x ∈ s.outbox, Numbered dp stream s.blocksToProcess s.failed x.1 x.2
  sequenced : s.sequencer.Carries (Numbered dp stream s.blocksToProcess s.failed)
  got : ∀ i b, s.got[i]? = some b → Numbered dp stream s.blocksToProcess s.failed i b
  processed : s.blocksProcessed = s.got.length
  head : s.sequencer.head = s.got.length
  covered : s.cancelled = false → ∀ i < s.blocksToProcess, i ∈ s.tasks.map Prod.fst ∨
    i ∈ s.outbox.map Prod.fst ∨ s.sequencer.Settled i

namespace Delivering

theorem start (dp : Decompressor) (stream : Bytes) :
    Delivering dp stream ({ stream := stream } : ReaderPipeline α) :=
  ⟨Nat.zero_le _,rfl,rfl,by simp,by simp,Sequencer.carries_empty _,by simp,rfl,rfl,by simp⟩

theorem restate (h : Delivering dp stream s) {on eof cancelled : Bool} {phase : ReaderPhase α}
    (hc : cancelled = false → s.cancelled = false) :
    Delivering dp stream { s with
      sourceOn := on, endOfFile := eof, cancelled := cancelled, phase := phase } :=
  ⟨h.count,h.ahead,h.ends,h.tasks,h.outbox,h.sequenced,h.got,h.processed,h.head,
    fun hf => h.covered (hc hf)⟩

theorem read (h : Delivering dp stream s) {zsize : Nat} {zbytes rest : Bytes}
    (next : readZblock s.stream = .zblock zsize zbytes rest) :
    Delivering dp stream { s with
      stream := rest
      blocksToProcess := s.blocksToProcess+1
      tasks := s.tasks ++ [(s.blocksToProcess,⟨zsize,zbytes⟩)] } := by
  obtain ⟨hz,he⟩ := zblocks_cons next
  have hdrop : (zblocks stream).drop s.blocksToProcess = ⟨zsize,zbytes⟩ :: zblocks rest := by
    rw [← h.ahead,hz]
  have hlt : s.blocksToProcess < (zblocks stream).length := by
    by_contra hge
    rw [List.drop_eq_nil_of_le (by omega)] at hdrop
    cases hdrop
  have hget : (zblocks stream)[s.blocksToProcess]? = some ⟨zsize,zbytes⟩ := by
    rw [← List.head?_drop,hdrop]
    rfl
  exact {
    count := hlt
    ahead := by
      have htail := congrArg List.tail hdrop
      rw [List.tail_drop] at htail
      exact htail.symm
    ends := by rw [← h.ends,he]
    tasks := by
      intro t ht
      rcases List.mem_append.mp ht with ht | ht
      · exact ⟨Nat.lt_succ_of_lt (h.tasks t ht).1,(h.tasks t ht).2⟩
      · rw [List.mem_singleton.mp ht]
        exact ⟨Nat.lt_succ_self _,hget⟩
    outbox := fun x hx => (h.outbox x hx).mono (Nat.le_succ _) id
    sequenced := fun tag b hb => (h.sequenced tag b hb).mono (Nat.le_succ _) id
    got := fun i b hb => (h.got i b hb).mono (Nat.le_succ _) id
    processed := h.processed
    head := h.head
    covered := by
      intro hc i hi
      simp only [List.map_append,List.map_cons,List.map_nil,List.mem_append,List.mem_singleton]
      by_cases hlast : i = s.blocksToProcess
      · exact .inl (.inr hlast)
      · rcases h.covered hc i (by simp only at hi; omega) with hm | hm
        · exact .inl (.inl hm)
        · exact .inr hm }

theorem decompress (h : Delivering dp stream s) {before after : List (Nat × Zbytes)}
    {tag : Nat} {z : Zbytes} (task : s.tasks = before ++ (tag,z) :: after)
    (ok : (dp.decompress z.bytes z.zsize).1 ≠ []) :
    Delivering dp stream { s with
      tasks := before ++ after
      outbox := s.outbox ++ [(tag,dp.decompress z.bytes z.zsize)] } where
  count := h.count
  ahead := h.ahead
  ends := h.ends
  tasks := by
    intro t ht
    refine h.tasks t ?_
    rw [task]
    exact mem_of_taken ht
  outbox := by
    intro x hx
    rcases List.mem_append.mp hx with hx | hx
    · exact h.outbox x hx
    · rw [List.mem_singleton.mp hx]
      obtain ⟨hlt,hz⟩ := h.tasks (tag,z) (by rw [task]; simp)
      refine ⟨hlt,.inl ⟨ok,?_⟩⟩
      rw [decompressed,List.getElem?_map,hz]
      rfl
  sequenced := h.sequenced
  got := h.got
  processed := h.processed
  head := h.head
  covered := by
    intro hc i hi
    have hm := h.covered hc i hi
    rw [task,mem_map_taken] at hm
    simp only [List.map_append,List.map_cons,List.map_nil,List.mem_append,List.mem_singleton]
      at hm ⊢
    tauto

theorem decompressError (h : Delivering dp stream s) {before after : List (Nat × Zbytes)}
    {tag : Nat} {z : Zbytes} (task : s.tasks = before ++ (tag,z) :: after)
    (error : (dp.decompress z.bytes z.zsize).1 = []) :
    Delivering dp stream { s with
      tasks := before ++ after
      outbox := s.outbox ++ [(0,dp.decompress z.bytes z.zsize)]
      cancelled := true
      failed := true } where
  count := h.count
  ahead := h.ahead
  ends := h.ends
  tasks := by
    intro t ht
    refine h.tasks t ?_
    rw [task]
    exact mem_of_taken ht
  outbox := by
    intro x hx
    rcases List.mem_append.mp hx with hx | hx
    · exact (h.outbox x hx).mono (Nat.le_refl _) fun _ => rfl
    · rw [List.mem_singleton.mp hx]
      have hlt := (h.tasks (tag,z) (by rw [task]; simp)).1
      exact ⟨Nat.lt_of_le_of_lt (Nat.zero_le _) hlt,.inr ⟨error,rfl,rfl⟩⟩
  sequenced := fun tag b hb => (h.sequenced tag b hb).mono (Nat.le_refl _) fun _ => rfl
  got := fun i b hb => (h.got i b hb).mono (Nat.le_refl _) fun _ => rfl
  processed := h.processed
  head := h.head
  covered := nofun

theorem sequence (h : Delivering dp stream s) {before after : List (Nat × Block)} {tag : Nat}
    {b : Block} (item : s.outbox = before ++ (tag,b) :: after) :
    Delivering dp stream { s with
      outbox := before ++ after, sequencer := s.sequencer.put tag b } where
  count := h.count
  ahead := h.ahead
  ends := h.ends
  tasks := h.tasks
  outbox := by
    intro x hx
    refine h.outbox x ?_
    rw [item]
    exact mem_of_taken hx
  sequenced := h.sequenced.put (h.outbox (tag,b) (by rw [item]; simp))
  got := h.got
  processed := h.processed
  head := by simpa using h.head
  covered := by
    intro hc i hi
    rcases h.covered hc i hi with hm | hm | hm
    · exact .inl hm
    · rw [item,mem_map_taken] at hm
      rcases hm with rfl | hm
      · exact .inr (.inr (s.sequencer.settled_put _ b))
      · exact .inr (.inl hm)
    · exact .inr (.inr (hm.put tag b))

theorem drop (h : Delivering dp stream s) (cancelled : s.cancelled = true)
    {tasks : List (Nat × Zbytes)} {outbox : List (Nat × Block)}
    (htasks : ∀ t ∈ tasks, t ∈ s.tasks) (houtbox : ∀ x ∈ outbox, x ∈ s.outbox) :
    Delivering dp stream { s with tasks := tasks, outbox := outbox } :=
  ⟨h.count,h.ahead,h.ends,fun t ht => h.tasks t (htasks t ht),
    fun x hx => h.outbox x (houtbox x hx),h.sequenced,h.got,h.processed,h.head,
    fun hc => by rw [show s.cancelled = false from hc] at cancelled; cases cancelled⟩

theorem take (h : Delivering dp stream s) {b : Block} (next : s.sequencer.next = some b) :
    Delivering dp stream { s with
      sequencer := s.sequencer.release
      blocksProcessed := s.blocksProcessed+1
      got := s.got ++ [b] } where
  count := h.count
  ahead := h.ahead
  ends := h.ends
  tasks := h.tasks
  outbox := h.outbox
  sequenced := h.sequenced.release
  got := by
    intro i x hx
    by_cases hi : i < s.got.length
    · rw [List.getElem?_append_left hi] at hx
      exact h.got i x hx
    · have hlen := (List.getElem?_eq_some_iff.mp hx).1
      have hlast : i = s.got.length := by simp at hlen; omega
      subst hlast
      simp only [List.getElem?_concat_length,Option.some.injEq] at hx
      subst hx
      rw [← h.head]
      exact h.sequenced _ _ next
  processed := by simp [h.processed]
  head := by simp [Sequencer.release,h.head]
  covered := by
    intro hc i hi
    rcases h.covered hc i hi with hm | hm | hm
    · exact .inl hm
    · exact .inr (.inl hm)
    · exact .inr (.inr hm.release)

end Delivering

def ReaderPhase.Cancelled : ReaderPhase α → Prop
  | .waiting _ | .thrown _ => True
  | _ => False

/-- What the shared flags say about the stream. -/
structure Flagged (dp : Decompressor) (stream : Bytes) (s : ReaderPipeline α) : Prop where
  failed : s.failed = true → s.cancelled = true ∧ ∃ b ∈ decompressed dp stream, b.1 = []
  cancelled : s.cancelled = true → Broken dp stream ∨ s.phase.Cancelled
  stopped : s.sourceOn = false → s.endOfFile = true ∨ s.cancelled = true
  endOfFile : s.endOfFile = true →
    s.sourceOn = false ∧ s.blocksToProcess = (zblocks stream).length

/-- What stands behind each way of winding the reader down. -/
def Reason (dp : Decompressor) (p : Reader α) (stream : Bytes) (s : ReaderPipeline α) :
    Cause → Prop
  | .endOfFile => demand p s.got = .error .blocked ∧ s.endOfFile = true ∧
      s.blocksToProcess ≤ s.got.length
  | .broken => Broken dp stream
  | .reader msg => demand p s.got = .error (cleanupHalt msg)

/-- What the consuming thread knows where it stands. -/
def Placed (dp : Decompressor) (p : Reader α) (stream : Bytes) (s : ReaderPipeline α) : Prop :=
  match s.phase with
  | .running => True
  | .loadEnd | .loadCancelled => demand p s.got = .error .blocked
  | .loadCount => demand p s.got = .error .blocked ∧ s.endOfFile = true
  | .cleanup cause | .waiting cause => Reason dp p stream s cause
  | .finishing a => demand p s.got = .ok a
  | .returned a => demand p s.got = .ok a ∧ s.Idle
  | .thrown cause => Reason dp p stream s cause ∧ s.Idle
  | .escaped msg => demand p s.got = .error (.error (.direct msg))

def ReaderPipeline.Busy (s : ReaderPipeline α) : Prop := ¬ s.Idle

theorem ReaderPipeline.Busy.of_source (on : s.sourceOn = true) : s.Busy := by
  rintro ⟨off,_⟩
  rw [on] at off
  cases off

theorem ReaderPipeline.Busy.of_task {before after : List (Nat × Zbytes)} {t : Nat × Zbytes}
    (task : s.tasks = before ++ t :: after) : s.Busy :=
  fun idle => taken_ne_nil task idle.2.1

theorem ReaderPipeline.Busy.of_block {before after : List (Nat × Block)} {x : Nat × Block}
    (item : s.outbox = before ++ x :: after) : s.Busy :=
  fun idle => taken_ne_nil item idle.2.2

theorem Placed.node_step {t : ReaderPipeline α} (h : Placed dp p stream s)
    (hphase : t.phase = s.phase) (hgot : t.got = s.got)
    (heof : s.endOfFile = true →
      t.endOfFile = true ∧ t.blocksToProcess = s.blocksToProcess)
    (hbusy : s.Busy) : Placed dp p stream t := by
  have hreason : ∀ cause, Reason dp p stream s cause → Reason dp p stream t cause := by
    intro cause hr
    cases cause with
    | endOfFile =>
      obtain ⟨hd,he,hc⟩ := hr
      obtain ⟨he',hc'⟩ := heof he
      exact ⟨by rw [hgot]; exact hd,he',by rw [hc',hgot]; exact hc⟩
    | broken => exact hr
    | reader msg => exact (congrArg (demand p) hgot).trans hr
  rw [Placed,hphase,hgot]
  rw [Placed] at h
  cases hp : s.phase with
  | running => trivial
  | loadCount => rw [hp] at h; exact ⟨h.1,(heof h.2).1⟩
  | cleanup cause => rw [hp] at h; exact hreason cause h
  | waiting cause => rw [hp] at h; exact hreason cause h
  | returned a => rw [hp] at h; exact absurd h.2 hbusy
  | thrown cause => rw [hp] at h; exact absurd h.2 hbusy
  | _ => rw [hp] at h; exact h

/-- The invariant of the multithreaded reader. -/
structure ReaderInv (dp : Decompressor) (p : Reader α) (stream : Bytes)
    (s : ReaderPipeline α) : Prop where
  delivering : Delivering dp stream s
  flagged : Flagged dp stream s
  placed : Placed dp p stream s
  asked : ∀ k < s.got.length, demand p (s.got.take k) = .error .blocked

theorem ReaderInv.start (dp : Decompressor) (p : Reader α) (stream : Bytes) :
    ReaderInv dp p stream { stream := stream } :=
  ⟨Delivering.start dp stream,
    ⟨nofun,nofun,nofun,nofun⟩,trivial,fun _ hk => nomatch hk⟩

theorem ReaderInv.moves (h : ReaderInv dp p stream s) {phase : ReaderPhase α}
    (quiet : ¬ s.phase.Cancelled) (hp : Placed dp p stream { s with phase := phase }) :
    ReaderInv dp p stream { s with phase := phase } :=
  ⟨h.delivering.restate id,
    ⟨h.flagged.failed,fun hc => .inl ((h.flagged.cancelled hc).resolve_right quiet),
      h.flagged.stopped,h.flagged.endOfFile⟩,hp,h.asked⟩

theorem ReaderInv.step {t : ReaderPipeline α} (h : ReaderInv dp p stream s)
    (hstep : ReaderStep dp p resets s t) : ReaderInv dp p stream t := by
  have hd := h.delivering
  have hf := h.flagged
  have hp := h.placed
  have hquiet : ∀ {phase : ReaderPhase α}, s.phase = phase → ¬ phase.Cancelled →
      ¬ s.phase.Cancelled := by
    rintro _ rfl hx
    exact hx
  have hnotEof : s.sourceOn = true → s.endOfFile = true → False := by
    intro on he
    rw [(hf.endOfFile he).1] at on
    cases on
  cases hstep with
  | read on next =>
    refine ⟨hd.read next,⟨hf.failed,hf.cancelled,fun off => ?_,fun he => ?_⟩,
      hp.node_step rfl rfl (fun he => (hnotEof on he).elim) (.of_source on),h.asked⟩
    · exact hf.stopped off
    · exact (hnotEof on he).elim
  | readEnd on next =>
    have hnone : zblocks s.stream = [] := by
      rcases next with next | next <;> exact (zblocks_end (by simp [next])).1
    refine ⟨hd.restate id,⟨hf.failed,hf.cancelled,fun _ => .inl rfl,fun _ => ⟨rfl,?_⟩⟩,
      hp.node_step rfl rfl (fun he => (hnotEof on he).elim) (.of_source on),h.asked⟩
    have hdrop := hd.ahead
    rw [hnone] at hdrop
    exact Nat.le_antisymm hd.count (List.drop_eq_nil_iff.mp hdrop.symm)
  | readOversized on next =>
    have hbroken : Broken dp stream := by
      refine .inr ?_
      rw [← hd.ends,(zblocks_end (by simp [next])).2,next]
    exact ⟨hd.restate nofun,
      ⟨fun hx => ⟨rfl,(hf.failed hx).2⟩,fun _ => .inl hbroken,fun _ => .inr rfl,
        fun he => (hnotEof on he).elim⟩,
      hp.node_step rfl rfl (fun he => (hnotEof on he).elim) (.of_source on),h.asked⟩
  | decompress before after task ok =>
    exact ⟨hd.decompress task ok,⟨hf.failed,hf.cancelled,hf.stopped,hf.endOfFile⟩,
      hp.node_step rfl rfl (fun he => ⟨he,rfl⟩) (.of_task task),h.asked⟩
  | decompressError before after task error =>
    have hempty : ∃ b ∈ decompressed dp stream, b.1 = [] := by
      obtain ⟨_,hz⟩ := hd.tasks _ (by rw [task]; exact List.mem_append_right _ List.mem_cons_self)
      exact ⟨_,List.mem_map_of_mem (List.mem_of_getElem? hz),error⟩
    exact ⟨hd.decompressError task error,
      ⟨fun _ => ⟨rfl,hempty⟩,fun _ => .inl (.inl hempty),fun _ => .inr rfl,hf.endOfFile⟩,
      hp.node_step rfl rfl (fun he => ⟨he,rfl⟩) (.of_task task),h.asked⟩
  | sequence before after item =>
    exact ⟨hd.sequence item,⟨hf.failed,hf.cancelled,hf.stopped,hf.endOfFile⟩,
      hp.node_step rfl rfl (fun he => ⟨he,rfl⟩) (.of_block item),h.asked⟩
  | dropSource on cancelled =>
    exact ⟨hd.restate id,
      ⟨hf.failed,hf.cancelled,fun _ => .inr cancelled,fun he => (hnotEof on he).elim⟩,
      hp.node_step rfl rfl (fun he => (hnotEof on he).elim) (.of_source on),h.asked⟩
  | dropTask before after task cancelled =>
    refine ⟨hd.drop cancelled (fun t ht => ?_) fun x hx => hx,
      ⟨hf.failed,hf.cancelled,hf.stopped,hf.endOfFile⟩,
      hp.node_step rfl rfl (fun he => ⟨he,rfl⟩) (.of_task task),h.asked⟩
    rw [task]
    exact mem_of_taken ht
  | dropBlock before after item cancelled =>
    refine ⟨hd.drop cancelled (fun t ht => ht) fun x hx => ?_,
      ⟨hf.failed,hf.cancelled,hf.stopped,hf.endOfFile⟩,
      hp.node_step rfl rfl (fun he => ⟨he,rfl⟩) (.of_block item),h.asked⟩
    rw [item]
    exact mem_of_taken hx
  | take running asks next =>
    refine ⟨hd.take next,⟨hf.failed,hf.cancelled,hf.stopped,hf.endOfFile⟩,?_,?_⟩
    · rw [Placed,show _ = ReaderPhase.running from running]
      trivial
    · intro k hk
      simp only [List.length_append,List.length_cons,List.length_nil] at hk
      rw [List.take_append_of_le_length (by omega)]
      by_cases hlast : k = s.got.length
      · rw [hlast,List.take_length]
        exact asks
      · exact h.asked k (by omega)
  | miss running asks next => exact h.moves (hquiet running id) asks
  | loadEnd loading =>
    rw [Placed,loading] at hp
    refine h.moves (hquiet loading id) ?_
    by_cases he : s.endOfFile = true
    · rw [if_pos he]
      exact ⟨hp,he⟩
    · rw [if_neg he]
      exact hp
  | loadCount loading =>
    rw [Placed,loading] at hp
    refine h.moves (hquiet loading id) ?_
    by_cases hc : s.blocksProcessed ≥ s.blocksToProcess
    · rw [if_pos hc]
      exact ⟨hp.1,hp.2,by rw [← hd.processed]; exact hc⟩
    · rw [if_neg hc]
      exact hp.1
  | loadCancelled loading =>
    refine h.moves (hquiet loading id) ?_
    by_cases hc : s.cancelled = true
    · rw [if_pos hc]
      exact (hf.cancelled hc).resolve_right (hquiet loading id)
    · rw [if_neg hc]
      trivial
  | cleanupAndThrow running error => exact h.moves (hquiet running id) error
  | throw running error => exact h.moves (hquiet running id) error
  | done running ok => exact h.moves (hquiet running id) ok
  | cancel leaving =>
    rw [Placed,leaving] at hp
    exact ⟨hd.restate nofun,
      ⟨fun h => ⟨rfl,(hf.failed h).2⟩,fun _ => .inr trivial,fun _ => .inr rfl,hf.endOfFile⟩,hp,h.asked⟩
  | wait waiting idle =>
    rw [Placed,waiting] at hp
    exact ⟨hd.restate id,⟨hf.failed,fun _ => .inr trivial,hf.stopped,hf.endOfFile⟩,⟨hp,idle⟩,
      h.asked⟩
  | finish finishing idle =>
    rw [Placed,finishing] at hp
    refine h.moves (hquiet finishing id) ?_
    by_cases hc : (s.cancelled && !resets) = true
    · rw [if_pos hc]
      rw [Bool.and_eq_true] at hc
      exact ⟨(hf.cancelled hc.1).resolve_right (hquiet finishing id),idle⟩
    · rw [if_neg hc]
      exact ⟨hp,idle⟩

/-- What holds of the reader throughout any run. -/
theorem ReaderInv.run (run : ReaderRuns dp p resets stream s) : ReaderInv dp p stream s :=
  invariant (ReaderInv.start dp p stream) (fun _ _ h hs => h.step hs) run

end

end QData
