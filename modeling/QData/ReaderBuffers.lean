import QData.ReaderPipeline
import QData.WriterBuffers
/-! The buffers of the multithreaded reader: which of them the source, a task, a message, the
consumer or a queue of free ones has, and what lies in them. -/
set_option autoImplicit false

namespace QData
open Words Systems Sequencing Ledger

structure ReadZblock where
  buffer : Nat
  zbytes : Zbytes
  size_eq : zbytes.bytes.length = compressedBlockSize zbytes.zsize

def ReadZblock.entry (z : ReadZblock) : Entry UInt8 := (z.buffer,some z.zbytes.bytes)

/-- A message that the decompression node has, or a running body and the buffer it
decompresses into. -/
inductive DecompressTask where
  | waiting (blocknumber : Nat) (z : ReadZblock) : DecompressTask
  | running (blocknumber : Nat) (z : ReadZblock) (block : Nat) : DecompressTask

def DecompressTask.entries : DecompressTask → List (Entry UInt8)
  | .waiting _ z => [z.entry]
  | .running _ z block => [(block,none),z.entry]

def DecompressTask.numbered : DecompressTask → Nat × Zbytes
  | .waiting n z => (n,z.zbytes)
  | .running n z _ => (n,z.zbytes)

structure OrderedData where
  buffer : Nat
  block : Block

def OrderedData.entry (d : OrderedData) : Entry UInt8 := (d.buffer,some d.block.1)

/-- What a decompression body returns, and the zblock that it has still to push to the free
ones. Without one it is a message. -/
structure DecompressOutput where
  blocknumber : Nat
  data : OrderedData
  source : Option Nat

def DecompressOutput.entries (o : DecompressOutput) : List (Entry UInt8) :=
  o.data.entry :: free o.source.toList

/-- A zblock that the body of the source has, and what it has read into it, with the stream
behind that. -/
inductive Reading where
  | idle : Reading
  | obtained (zblock : Nat) : Reading
  | filled (z : ReadZblock) (rest : Bytes) : Reading

def Reading.entries : Reading → List (Entry UInt8)
  | .idle => []
  | .obtained zblock => [(zblock,none)]
  | .filled z _ => [z.entry]

/-- `BlockCompressReaderMT` with the memory of its buffers. A buffer is a number, given when it
is made; what lies in one is whatever was written there. -/
structure ReaderBuffers (α : Type) where
  /-- from where the current call of `read_next_zblock` starts, or the next -/
  stream : Bytes
  memory : Nat → Bytes
  next : Nat := 1
  sourceOn : Bool := true
  reading : Reading := .idle
  endOfFile : Bool := false
  blocksToProcess : Nat := 0
  availableZblocks : List Nat := []
  availableBlocks : List Nat := []
  tasks : List DecompressTask := []
  outputs : List DecompressOutput := []
  sequencer : Sequencer OrderedData := .empty
  cancelled : Bool := false
  failed : Bool := false
  currentBlock : Nat := 0
  /-- what `try_get` has given to `get_new_block`, and whether the block before was pushed to
  the free ones -/
  taken : Option (OrderedData × Bool) := none
  blocksProcessed : Nat := 0
  got : List Block := []
  phase : ReaderPhase α := .running

namespace ReaderBuffers

variable {α : Type}

def Idle (s : ReaderBuffers α) : Prop := s.sourceOn = false ∧ s.tasks = [] ∧ s.outputs = []

def currentData (s : ReaderBuffers α) : Bytes := (s.got.getLast?.map Subtype.val).getD []

/-- The consumer's buffers: the current block, until it is pushed to the free ones, and the
next. -/
def consumerEntries (currentBlock : Nat) (data : Bytes) :
    Option (OrderedData × Bool) → List (Entry UInt8)
  | none => [(currentBlock,some data)]
  | some (d,false) => [(currentBlock,some data),d.entry]
  | some (d,true) => [d.entry]

/-- All buffers that anyone has, with what must be found in them; those in the sequencer
apart. -/
def entries (s : ReaderBuffers α) : List (Entry UInt8) :=
  consumerEntries s.currentBlock s.currentData s.taken ++
    (s.reading.entries ++ (s.tasks.flatMap DecompressTask.entries ++
      (s.outputs.flatMap DecompressOutput.entries ++
        (free s.availableBlocks ++ free s.availableZblocks))))

def slots (q : Sequencer OrderedData) : Nat → Option (Nat × Bytes) :=
  (q.map fun d => (d.buffer,d.block.1)).slots

def Filling (s : ReaderBuffers α) (b : Nat) : Prop :=
  s.reading = .obtained b ∨ ∃ n z, .running n z b ∈ s.tasks

/-- The buffers with data that somebody has still to read, the consumer included. -/
def Carried (s : ReaderBuffers α) (b : Nat) : Prop :=
  ∃ c, (b,some c) ∈ s.entries ∨ ∃ tag, slots s.sequencer tag = some (b,c)

end ReaderBuffers

theorem readZblock_size {stream zbytes rest : Bytes} {zsize : Nat}
    (h : readZblock stream = .zblock zsize zbytes rest) :
    zbytes.length = compressedBlockSize zsize := by
  unfold readZblock at h
  grind

section
variable {α : Type} (dp : Decompressor) (p : Reader α) (resets : Bool)

/-- One statement of the body of a node or of the consuming thread. -/
inductive ReaderBufferStep : ReaderBuffers α → ReaderBuffers α → Prop
  | noSize {s : ReaderBuffers α} (on : s.sourceOn = true) (idle : s.reading = .idle)
      (next : readZblock s.stream = .noSize) :
      ReaderBufferStep s { s with sourceOn := false, endOfFile := true }
  | oversized {s : ReaderBuffers α} (on : s.sourceOn = true) (idle : s.reading = .idle)
      (next : readZblock s.stream = .oversized) :
      ReaderBufferStep s { s with sourceOn := false, cancelled := true }
  | obtain {s : ReaderBuffers α} {z next : Nat} {queue : List Nat} (on : s.sourceOn = true)
      (idle : s.reading = .idle) (sized : readZblock s.stream ≠ .noSize)
      (fits : readZblock s.stream ≠ .oversized)
      (got : Obtains s.availableZblocks s.next z queue next) :
      ReaderBufferStep s { s with
        reading := .obtained z, availableZblocks := queue, next := next }
  | fill {s : ReaderBuffers α} {z zsize : Nat} {zbytes rest : Bytes}
      (turn : s.reading = .obtained z)
      (next : readZblock s.stream = .zblock zsize zbytes rest) :
      ReaderBufferStep s { s with
        memory := Function.update s.memory z (writeAt (s.memory z) 0 zbytes)
        reading := .filled ⟨z,⟨zsize,zbytes⟩,readZblock_size next⟩ rest }
  | truncated {s : ReaderBuffers α} {z : Nat} (turn : s.reading = .obtained z)
      (next : readZblock s.stream = .truncated) :
      -- what there was lies in the zblock, and this is let go
      ReaderBufferStep s { s with
        memory := Function.update s.memory z (writeAt (s.memory z) 0 (s.stream.drop 4))
        reading := .idle
        sourceOn := false
        endOfFile := true }
  | emit {s : ReaderBuffers α} {z : ReadZblock} {rest : Bytes}
      (turn : s.reading = .filled z rest) :
      ReaderBufferStep s { s with
        stream := rest
        reading := .idle
        blocksToProcess := s.blocksToProcess+1
        tasks := s.tasks ++ [.waiting s.blocksToProcess z] }
  | start {s : ReaderBuffers α} (before after : List DecompressTask) {n b next : Nat}
      {z : ReadZblock} {queue : List Nat} (task : s.tasks = before ++ .waiting n z :: after)
      (got : Obtains s.availableBlocks s.next b queue next) :
      ReaderBufferStep s { s with
        tasks := before ++ .running n z b :: after
        availableBlocks := queue
        next := next }
  | decompress {s : ReaderBuffers α} (before after : List DecompressTask) {n b : Nat}
      {z : ReadZblock} {r : Block} (task : s.tasks = before ++ .running n z b :: after)
      (result : r = dp.decompress
        ((s.memory z.buffer).take (compressedBlockSize z.zbytes.zsize)) z.zbytes.zsize)
      (ok : r.1 ≠ []) :
      ReaderBufferStep s { s with
        memory := Function.update s.memory b (writeAt (s.memory b) 0 r.1)
        tasks := before ++ after
        outputs := s.outputs ++ [⟨n,⟨b,r⟩,some z.buffer⟩] }
  | decompressError {s : ReaderBuffers α} (before after : List DecompressTask) {n b : Nat}
      {z : ReadZblock} {r : Block} {left : Bytes}
      (task : s.tasks = before ++ .running n z b :: after)
      (result : r = dp.decompress
        ((s.memory z.buffer).take (compressedBlockSize z.zbytes.zsize)) z.zbytes.zsize)
      (error : r.1 = []) :
      -- anything may be left in the block; the zblock is let go
      ReaderBufferStep s { s with
        memory := Function.update s.memory b left
        tasks := before ++ after
        outputs := s.outputs ++ [⟨0,⟨b,r⟩,none⟩]
        cancelled := true
        failed := true }
  | recycleZblock {s : ReaderBuffers α} (before after : List DecompressOutput) {n z : Nat}
      {d : OrderedData} (output : s.outputs = before ++ ⟨n,d,some z⟩ :: after) :
      ReaderBufferStep s { s with
        outputs := before ++ ⟨n,d,none⟩ :: after
        availableZblocks := s.availableZblocks ++ [z] }
  | sequence {s : ReaderBuffers α} (before after : List DecompressOutput) {n : Nat}
      {d : OrderedData} (output : s.outputs = before ++ ⟨n,d,none⟩ :: after) :
      ReaderBufferStep s { s with
        outputs := before ++ after
        sequencer := s.sequencer.put n d }
  | dropSource {s : ReaderBuffers α} (on : s.sourceOn = true) (idle : s.reading = .idle)
      (cancelled : s.cancelled = true) : ReaderBufferStep s { s with sourceOn := false }
  | dropTask {s : ReaderBuffers α} (before after : List DecompressTask) {n : Nat}
      {z : ReadZblock} (task : s.tasks = before ++ .waiting n z :: after)
      (cancelled : s.cancelled = true) :
      ReaderBufferStep s { s with tasks := before ++ after }
  | dropBlock {s : ReaderBuffers α} (before after : List DecompressOutput) {n : Nat}
      {d : OrderedData} (output : s.outputs = before ++ ⟨n,d,none⟩ :: after)
      (cancelled : s.cancelled = true) :
      ReaderBufferStep s { s with outputs := before ++ after }
  | take {s : ReaderBuffers α} {d : OrderedData} (running : s.phase = .running)
      (asks : demand p s.got = .error .blocked) (free : s.taken = none)
      (next : s.sequencer.next = some d) :
      ReaderBufferStep s { s with
        sequencer := s.sequencer.release, taken := some (d,false) }
  | recycleBlock {s : ReaderBuffers α} {d : OrderedData} (turn : s.taken = some (d,false)) :
      ReaderBufferStep s { s with
        availableBlocks := s.availableBlocks ++ [s.currentBlock], taken := some (d,true) }
  | assign {s : ReaderBuffers α} {d : OrderedData} (turn : s.taken = some (d,true)) :
      ReaderBufferStep s { s with
        currentBlock := d.buffer
        taken := none
        blocksProcessed := s.blocksProcessed+1
        got := s.got ++ [d.block] }
  | miss {s : ReaderBuffers α} (running : s.phase = .running)
      (asks : demand p s.got = .error .blocked) (free : s.taken = none)
      (next : s.sequencer.next = none) : ReaderBufferStep s { s with phase := .loadEnd }
  | loadEnd {s : ReaderBuffers α} (loading : s.phase = .loadEnd) :
      ReaderBufferStep s { s with
        phase := if s.endOfFile then .loadCount else .loadCancelled }
  | loadCount {s : ReaderBuffers α} (loading : s.phase = .loadCount) :
      ReaderBufferStep s { s with
        phase := if s.blocksProcessed ≥ s.blocksToProcess then .cleanup .endOfFile
          else .loadCancelled }
  | loadCancelled {s : ReaderBuffers α} (loading : s.phase = .loadCancelled) :
      ReaderBufferStep s { s with
        phase := if s.cancelled then .cleanup .broken else .running }
  | cleanupAndThrow {s : ReaderBuffers α} {msg : String} (running : s.phase = .running)
      (free : s.taken = none) (error : demand p s.got = .error (cleanupHalt msg)) :
      ReaderBufferStep s { s with phase := .cleanup (.reader msg) }
  | throw {s : ReaderBuffers α} {msg : String} (running : s.phase = .running)
      (free : s.taken = none) (error : demand p s.got = .error (.error (.direct msg))) :
      ReaderBufferStep s { s with phase := .escaped msg }
  | done {s : ReaderBuffers α} {a : α} (running : s.phase = .running) (free : s.taken = none)
      (ok : demand p s.got = .ok a) : ReaderBufferStep s { s with phase := .finishing a }
  | cancel {s : ReaderBuffers α} {cause : Cause} (leaving : s.phase = .cleanup cause) :
      ReaderBufferStep s { s with cancelled := true, phase := .waiting cause }
  | wait {s : ReaderBuffers α} {cause : Cause} (waiting : s.phase = .waiting cause)
      (idle : s.Idle) : ReaderBufferStep s { s with phase := .thrown cause }
  | finish {s : ReaderBuffers α} {a : α} (finishing : s.phase = .finishing a)
      (idle : s.Idle) :
      ReaderBufferStep s { s with
        phase := if s.cancelled && !resets then .thrown .broken else .returned a }

abbrev ReaderBufferRuns (stream : Bytes) (memory : Nat → Bytes) : ReaderBuffers α → Prop :=
  Runs (ReaderBufferStep dp p resets) { stream := stream, memory := memory }

end

namespace ReaderBuffers

variable {α : Type}

structure Ordered (s : ReaderBuffers α) : Prop where
  ledger : Sound s.memory s.entries (slots s.sequencer) s.next
  reads : s.sourceOn = false → s.reading = .idle
  filled : ∀ z rest, s.reading = .filled z rest →
    readZblock s.stream = .zblock z.zbytes.zsize z.zbytes.bytes rest
  asking : ∀ x, s.taken = some x → s.phase = .running

theorem Ordered.start (stream : Bytes) (memory : Nat → Bytes) :
    Ordered ({ stream := stream, memory := memory } : ReaderBuffers α) := by
  refine ⟨⟨?_,nofun,nofun,?_,nofun,?_,nofun⟩,nofun,nofun,nofun⟩
  · intro b
    simp [entries,consumerEntries,Reading.entries]
    split <;> omega
  · intro b hb
    have hb1 : 1 ≤ b := hb
    have hne : 0 ≠ b := by omega
    simp [entries,consumerEntries,Reading.entries,hne]
  · intro b c hc
    simp [entries,consumerEntries,Reading.entries,currentData] at hc
    rw [hc.2]
    exact List.nil_prefix

section
variable {s : ReaderBuffers α}

theorem Ordered.on (h : Ordered s) (busy : s.reading ≠ .idle) : s.sourceOn = true := by
  cases hon : s.sourceOn with
  | true => rfl
  | false => exact absurd (h.reads hon) busy

theorem Ordered.obtain (h : Ordered s) {z next : Nat} {queue : List Nat}
    (on : s.sourceOn = true) (idle : s.reading = .idle)
    (got : Obtains s.availableZblocks s.next z queue next) :
    Ordered { s with reading := .obtained z, availableZblocks := queue, next := next } := by
  refine ⟨?_,?_,nofun,h.asking⟩
  · refine h.ledger.obtains got ?_ ?_
    · intro x
      simp [entries,idle,Reading.entries,currentData]
      omega
    · intro x c
      simp [entries,idle,Reading.entries,currentData]
      grind
  · rw [on]
    nofun

theorem Ordered.fill (h : Ordered s) {z zsize : Nat} {zbytes rest : Bytes}
    (turn : s.reading = .obtained z) (next : readZblock s.stream = .zblock zsize zbytes rest) :
    Ordered { s with
      memory := Function.update s.memory z (writeAt (s.memory z) 0 zbytes)
      reading := .filled ⟨z,⟨zsize,zbytes⟩,readZblock_size next⟩ rest } := by
  refine ⟨?_,?_,?_,h.asking⟩
  · refine h.ledger.fills (e := (z,some zbytes)) ?_ ?_ ?_ ?_
    · simp [entries,Reading.entries,ReadZblock.entry]
    · rintro c ⟨⟩
      exact prefix_writeAt_zero _ _
    · intro x
      simp [entries,turn,Reading.entries,ReadZblock.entry,currentData]
    · intro x c
      simp [entries,turn,Reading.entries,ReadZblock.entry,currentData]
      grind
  · rw [h.on (by rw [turn]; nofun)]
    nofun
  · rintro z' rest' ⟨⟩
    exact next

theorem Ordered.truncated (h : Ordered s) {z : Nat} {left : Bytes}
    (turn : s.reading = .obtained z) :
    Ordered { s with
      memory := Function.update s.memory z left
      reading := .idle
      sourceOn := false
      endOfFile := true } := by
  have hfilled : Sound (Function.update s.memory z left) s.entries (slots s.sequencer) s.next := by
    refine h.ledger.fills (e := (z,none)) ?_ nofun (fun _ => Nat.le_refl _) fun _ _ => .inl
    simp [entries,turn,Reading.entries]
  refine ⟨?_,fun _ => rfl,nofun,h.asking⟩
  refine hfilled.moves ?_ ?_
  · intro x
    simp [entries,turn,Reading.entries,currentData]
  · intro x c
    simp [entries,turn,Reading.entries,currentData]
    grind

theorem Ordered.emit (h : Ordered s) {z : ReadZblock} {rest : Bytes}
    (turn : s.reading = .filled z rest) :
    Ordered { s with
      stream := rest
      reading := .idle
      blocksToProcess := s.blocksToProcess+1
      tasks := s.tasks ++ [.waiting s.blocksToProcess z] } := by
  refine ⟨?_,fun _ => rfl,nofun,h.asking⟩
  refine h.ledger.moves ?_ ?_
  · intro x
    simp [entries,turn,Reading.entries,DecompressTask.entries,currentData]
    omega
  · intro x c
    simp [entries,turn,Reading.entries,DecompressTask.entries,currentData]
    grind

theorem Ordered.start_task (h : Ordered s) (before after : List DecompressTask) {n b next : Nat}
    {z : ReadZblock} {queue : List Nat} (task : s.tasks = before ++ .waiting n z :: after)
    (got : Obtains s.availableBlocks s.next b queue next) :
    Ordered { s with
      tasks := before ++ .running n z b :: after
      availableBlocks := queue
      next := next } := by
  refine ⟨?_,h.reads,h.filled,h.asking⟩
  refine h.ledger.obtains got ?_ ?_
  · intro x
    simp [entries,task,DecompressTask.entries,currentData]
    omega
  · intro x c
    simp [entries,task,DecompressTask.entries,currentData]
    grind

theorem Ordered.decompress (h : Ordered s) (before after : List DecompressTask) {n b : Nat}
    {z : ReadZblock} {r : Block} (task : s.tasks = before ++ .running n z b :: after) :
    Ordered { s with
      memory := Function.update s.memory b (writeAt (s.memory b) 0 r.1)
      tasks := before ++ after
      outputs := s.outputs ++ [⟨n,⟨b,r⟩,some z.buffer⟩] } := by
  refine ⟨?_,h.reads,h.filled,h.asking⟩
  refine h.ledger.fills (e := (b,some r.1)) ?_ ?_ ?_ ?_
  · simp [entries,DecompressOutput.entries,OrderedData.entry]
  · rintro c ⟨⟩
    exact prefix_writeAt_zero _ _
  · intro x
    simp [entries,task,DecompressTask.entries,DecompressOutput.entries,ReadZblock.entry,
      OrderedData.entry,currentData]
    omega
  · intro x c
    simp [entries,task,DecompressTask.entries,DecompressOutput.entries,OrderedData.entry,
      currentData]
    grind

theorem Ordered.decompressError (h : Ordered s) (before after : List DecompressTask) {n b : Nat}
    {z : ReadZblock} {r : Block} {left : Bytes}
    (task : s.tasks = before ++ .running n z b :: after) (error : r.1 = []) :
    Ordered { s with
      memory := Function.update s.memory b left
      tasks := before ++ after
      outputs := s.outputs ++ [⟨0,⟨b,r⟩,none⟩]
      cancelled := true
      failed := true } := by
  refine ⟨?_,h.reads,h.filled,h.asking⟩
  refine h.ledger.fills (e := (b,some r.1)) ?_ ?_ ?_ ?_
  · simp [entries,DecompressOutput.entries,OrderedData.entry]
  · rintro c ⟨⟩
    rw [error]
    exact List.nil_prefix
  · intro x
    simp [entries,task,DecompressTask.entries,DecompressOutput.entries,OrderedData.entry,
      currentData]
    omega
  · intro x c
    simp [entries,task,DecompressTask.entries,DecompressOutput.entries,OrderedData.entry,
      currentData]
    grind

theorem Ordered.recycleZblock (h : Ordered s) (before after : List DecompressOutput) {n z : Nat}
    {d : OrderedData} (output : s.outputs = before ++ ⟨n,d,some z⟩ :: after) :
    Ordered { s with
      outputs := before ++ ⟨n,d,none⟩ :: after
      availableZblocks := s.availableZblocks ++ [z] } := by
  refine ⟨?_,h.reads,h.filled,h.asking⟩
  refine h.ledger.moves ?_ ?_
  · intro x
    simp [entries,output,DecompressOutput.entries,currentData]
    omega
  · intro x c
    simp [entries,output,DecompressOutput.entries,currentData]
    grind

theorem Ordered.sequence (h : Ordered s) (before after : List DecompressOutput) {n : Nat}
    {d : OrderedData} (output : s.outputs = before ++ ⟨n,d,none⟩ :: after) :
    Ordered { s with outputs := before ++ after, sequencer := s.sequencer.put n d } := by
  refine ⟨?_,h.reads,h.filled,h.asking⟩
  refine Sound.puts h.ledger n ?_ ?_ ?_
  · simp [entries,output,DecompressOutput.entries,OrderedData.entry]
  · intro x
    simp [entries,output,DecompressOutput.entries,OrderedData.entry,currentData]
    omega
  · intro x c
    simp [entries,output,DecompressOutput.entries,currentData]
    grind

theorem Ordered.dropTask (h : Ordered s) (before after : List DecompressTask) {n : Nat}
    {z : ReadZblock} (task : s.tasks = before ++ .waiting n z :: after) :
    Ordered { s with tasks := before ++ after } := by
  refine ⟨?_,h.reads,h.filled,h.asking⟩
  refine h.ledger.moves ?_ ?_
  · intro x
    simp [entries,task,DecompressTask.entries,currentData]
  · intro x c
    simp [entries,task,DecompressTask.entries,currentData]
    grind

theorem Ordered.dropBlock (h : Ordered s) (before after : List DecompressOutput) {n : Nat}
    {d : OrderedData} (output : s.outputs = before ++ ⟨n,d,none⟩ :: after) :
    Ordered { s with outputs := before ++ after } := by
  refine ⟨?_,h.reads,h.filled,h.asking⟩
  refine h.ledger.moves ?_ ?_
  · intro x
    simp [entries,output,DecompressOutput.entries,currentData]
  · intro x c
    simp [entries,output,DecompressOutput.entries,currentData]
    grind

theorem Ordered.take (h : Ordered s) {d : OrderedData} (running : s.phase = .running)
    (free : s.taken = none) (next : s.sequencer.next = some d) :
    Ordered { s with sequencer := s.sequencer.release, taken := some (d,false) } := by
  refine ⟨?_,h.reads,h.filled,fun _ _ => running⟩
  refine Sound.takes h.ledger next ?_ ?_
  · intro x
    simp [entries,free,consumerEntries,OrderedData.entry,currentData]
    omega
  · intro x c
    simp [entries,free,consumerEntries,OrderedData.entry,currentData]
    grind

theorem Ordered.recycleBlock (h : Ordered s) {d : OrderedData}
    (turn : s.taken = some (d,false)) :
    Ordered { s with
      availableBlocks := s.availableBlocks ++ [s.currentBlock], taken := some (d,true) } := by
  refine ⟨?_,h.reads,h.filled,fun _ _ => h.asking _ turn⟩
  refine h.ledger.moves ?_ ?_
  · intro x
    simp [entries,turn,consumerEntries,currentData]
    omega
  · intro x c
    simp [entries,turn,consumerEntries,currentData]
    grind

theorem Ordered.assign (h : Ordered s) {d : OrderedData} (turn : s.taken = some (d,true)) :
    Ordered { s with
      currentBlock := d.buffer
      taken := none
      blocksProcessed := s.blocksProcessed+1
      got := s.got ++ [d.block] } := by
  refine ⟨?_,h.reads,h.filled,nofun⟩
  refine h.ledger.moves ?_ ?_
  · intro x
    simp [entries,turn,consumerEntries,OrderedData.entry,currentData]
  · intro x c
    simp [entries,turn,consumerEntries,OrderedData.entry,currentData]
    grind

theorem Ordered.consumer (h : Ordered s) (free : s.taken = none) {cancelled : Bool}
    {phase : ReaderPhase α} : Ordered { s with cancelled := cancelled, phase := phase } :=
  ⟨h.ledger,h.reads,h.filled,fun _ ht => by cases free.symm.trans ht⟩

theorem Ordered.free (h : Ordered s) (elsewhere : s.phase ≠ .running) : s.taken = none := by
  cases ht : s.taken with
  | none => rfl
  | some x => exact absurd (h.asking x ht) elsewhere

variable {t : ReaderBuffers α} {dp : Decompressor} {p : Reader α} {resets : Bool}

theorem Ordered.step (h : Ordered s) (hstep : ReaderBufferStep dp p resets s t) : Ordered t := by
  cases hstep with
  | noSize on idle next => exact ⟨h.ledger,fun _ => idle,h.filled,h.asking⟩
  | oversized on idle next => exact ⟨h.ledger,fun _ => idle,h.filled,h.asking⟩
  | obtain on idle sized fits got => exact h.obtain on idle got
  | fill turn next => exact h.fill turn next
  | truncated turn next => exact h.truncated turn
  | emit turn => exact h.emit turn
  | start before after task got => exact h.start_task before after task got
  | decompress before after task result ok => exact h.decompress before after task
  | decompressError before after task result error =>
    exact h.decompressError before after task error
  | recycleZblock before after output => exact h.recycleZblock before after output
  | sequence before after output => exact h.sequence before after output
  | dropSource on idle cancelled => exact ⟨h.ledger,fun _ => idle,h.filled,h.asking⟩
  | dropTask before after task cancelled => exact h.dropTask before after task
  | dropBlock before after output cancelled => exact h.dropBlock before after output
  | take running asks free next => exact h.take running free next
  | recycleBlock turn => exact h.recycleBlock turn
  | assign turn => exact h.assign turn
  | miss running asks free next => exact h.consumer free
  | loadEnd loading => exact h.consumer (h.free (by rw [loading]; nofun))
  | loadCount loading => exact h.consumer (h.free (by rw [loading]; nofun))
  | loadCancelled loading => exact h.consumer (h.free (by rw [loading]; nofun))
  | cleanupAndThrow running free error => exact h.consumer free
  | throw running free error => exact h.consumer free
  | done running free ok => exact h.consumer free
  | cancel leaving => exact h.consumer (h.free (by rw [leaving]; nofun))
  | wait waiting idle => exact h.consumer (h.free (by rw [waiting]; nofun))
  | finish finishing idle => exact h.consumer (h.free (by rw [finishing]; nofun))

def takenBlocks : Option (OrderedData × Bool) → List Block
  | none => []
  | some (d,_) => [d.block]

/-- The pipeline of values: the buffers left out, a block of the stream taken as it is numbered,
and a block received as soon as `try_get` gives it. -/
def pipeline (s : ReaderBuffers α) : ReaderPipeline α where
  stream := s.stream
  sourceOn := s.sourceOn
  endOfFile := s.endOfFile
  blocksToProcess := s.blocksToProcess
  tasks := s.tasks.map DecompressTask.numbered
  outbox := s.outputs.map fun o => (o.blocknumber,o.data.block)
  sequencer := s.sequencer.map OrderedData.block
  cancelled := s.cancelled
  failed := s.failed
  blocksProcessed := s.blocksProcessed + (takenBlocks s.taken).length
  got := s.got ++ takenBlocks s.taken
  phase := s.phase

theorem pipeline_got (free : s.taken = none) : s.pipeline.got = s.got := by
  simp [pipeline,free,takenBlocks]

theorem pipeline_tasks (before after : List DecompressTask) {t : DecompressTask}
    (task : s.tasks = before ++ t :: after) :
    s.pipeline.tasks = before.map DecompressTask.numbered ++
      t.numbered :: after.map DecompressTask.numbered := by
  simp [pipeline,task]

theorem pipeline_outbox (before after : List DecompressOutput) {n : Nat} {d : OrderedData}
    {source : Option Nat} (output : s.outputs = before ++ ⟨n,d,source⟩ :: after) :
    s.pipeline.outbox = (before.map fun o => (o.blocknumber,o.data.block)) ++
      (n,d.block) :: after.map fun o => (o.blocknumber,o.data.block) := by
  simp [pipeline,output]

theorem read_zblock (h : Ordered s) {before after : List DecompressTask} {n b : Nat}
    {z : ReadZblock} (task : s.tasks = before ++ .running n z b :: after) :
    (s.memory z.buffer).take (compressedBlockSize z.zbytes.zsize) = z.zbytes.bytes := by
  have hpre : z.zbytes.bytes <+: s.memory z.buffer := by
    apply h.ledger.intact
    simp [entries,task,DecompressTask.entries,ReadZblock.entry]
  rw [← z.size_eq]
  exact (List.prefix_iff_eq_take.mp hpre).symm

theorem refines_emit (h : Ordered s) {z : ReadZblock} {rest : Bytes}
    (turn : s.reading = .filled z rest) :
    ReaderStep dp p resets s.pipeline (pipeline { s with
      stream := rest
      reading := .idle
      blocksToProcess := s.blocksToProcess+1
      tasks := s.tasks ++ [.waiting s.blocksToProcess z] }) := by
  have hstep : ReaderStep dp p resets s.pipeline _ :=
    .read (h.on (by rw [turn]; nofun)) (h.filled z rest turn)
  convert hstep using 1
  simp [pipeline,DecompressTask.numbered]

theorem refines_decompress (h : Ordered s) (before after : List DecompressTask) {n b : Nat}
    {z : ReadZblock} {r : Block} (memory : Nat → Bytes)
    (task : s.tasks = before ++ .running n z b :: after)
    (result : r = dp.decompress
      ((s.memory z.buffer).take (compressedBlockSize z.zbytes.zsize)) z.zbytes.zsize)
    (ok : r.1 ≠ []) :
    ReaderStep dp p resets s.pipeline (pipeline { s with
      memory := memory
      tasks := before ++ after
      outputs := s.outputs ++ [⟨n,⟨b,r⟩,some z.buffer⟩] }) := by
  rw [read_zblock h task] at result
  subst result
  have hstep : ReaderStep dp p resets s.pipeline _ :=
    .decompress _ _ (pipeline_tasks before after task) ok
  convert hstep using 1
  simp [pipeline]

theorem refines_decompressError (h : Ordered s) (before after : List DecompressTask) {n b : Nat}
    {z : ReadZblock} {r : Block} (memory : Nat → Bytes)
    (task : s.tasks = before ++ .running n z b :: after)
    (result : r = dp.decompress
      ((s.memory z.buffer).take (compressedBlockSize z.zbytes.zsize)) z.zbytes.zsize)
    (error : r.1 = []) :
    ReaderStep dp p resets s.pipeline (pipeline { s with
      memory := memory
      tasks := before ++ after
      outputs := s.outputs ++ [⟨0,⟨b,r⟩,none⟩]
      cancelled := true
      failed := true }) := by
  rw [read_zblock h task] at result
  subst result
  have hstep : ReaderStep dp p resets s.pipeline _ :=
    .decompressError _ _ (pipeline_tasks before after task) error
  convert hstep using 1
  simp [pipeline]

theorem refines_sequence (before after : List DecompressOutput) {n : Nat} {d : OrderedData}
    (output : s.outputs = before ++ ⟨n,d,none⟩ :: after) :
    ReaderStep dp p resets s.pipeline
      (pipeline { s with outputs := before ++ after, sequencer := s.sequencer.put n d }) := by
  have hstep : ReaderStep dp p resets s.pipeline _ :=
    .sequence _ _ (pipeline_outbox before after output)
  convert hstep using 1
  simp [pipeline,Sequencer.map_put]

theorem refines_take {d : OrderedData} (running : s.phase = .running)
    (asks : demand p s.got = .error .blocked) (free : s.taken = none)
    (next : s.sequencer.next = some d) :
    ReaderStep dp p resets s.pipeline
      (pipeline { s with sequencer := s.sequencer.release, taken := some (d,false) }) := by
  have hstep : ReaderStep dp p resets s.pipeline _ :=
    .take (b := d.block) running (by rw [pipeline_got free]; exact asks)
      (by simp [pipeline,Sequencer.next_map,next])
  convert hstep using 1
  simp [pipeline,Sequencer.map_release,free,takenBlocks]

theorem pipeline_idle (idle : s.Idle) : s.pipeline.Idle := by
  obtain ⟨hoff,htasks,houtputs⟩ := idle
  refine ⟨hoff,?_,?_⟩
  · simp [pipeline,htasks]
  · simp [pipeline,houtputs]

/-- A statement of the reader is a step of the pipeline, or none. -/
theorem step_refines (h : Ordered s) (hstep : ReaderBufferStep dp p resets s t) :
    t.pipeline = s.pipeline ∨ ReaderStep dp p resets s.pipeline t.pipeline := by
  cases hstep with
  | noSize on idle next => exact .inr (.readEnd on (.inl next))
  | oversized on idle next => exact .inr (.readOversized on next)
  | obtain on idle sized fits got => exact .inl rfl
  | fill turn next => exact .inl rfl
  | truncated turn next =>
    exact .inr (.readEnd (h.on (by rw [turn]; nofun)) (.inr next))
  | emit turn => exact .inr (refines_emit h turn)
  | start before after task got =>
    left
    simp [pipeline,task,DecompressTask.numbered]
  | decompress before after task result ok =>
    exact .inr (refines_decompress h before after _ task result ok)
  | decompressError before after task result error =>
    exact .inr (refines_decompressError h before after _ task result error)
  | recycleZblock before after output =>
    left
    simp [pipeline,output]
  | sequence before after output => exact .inr (refines_sequence before after output)
  | dropSource on idle cancelled => exact .inr (.dropSource on cancelled)
  | dropTask before after task cancelled =>
    right
    have hdrop : ReaderStep dp p resets s.pipeline _ :=
      .dropTask _ _ (pipeline_tasks before after task) cancelled
    convert hdrop using 1
    simp [pipeline]
  | dropBlock before after output cancelled =>
    right
    have hdrop : ReaderStep dp p resets s.pipeline _ :=
      .dropBlock _ _ (pipeline_outbox before after output) cancelled
    convert hdrop using 1
    simp [pipeline]
  | take running asks free next => exact .inr (refines_take running asks free next)
  | recycleBlock turn =>
    left
    simp [pipeline,turn,takenBlocks]
  | assign turn =>
    left
    simp [pipeline,turn,takenBlocks]
  | miss running asks free next =>
    exact .inr (.miss running (by rw [pipeline_got free]; exact asks)
      (by simp [pipeline,Sequencer.next_map,next]))
  | loadEnd loading => exact .inr (.loadEnd loading)
  | loadCount loading =>
    right
    have free := h.free (by rw [loading]; nofun)
    have hload : ReaderStep dp p resets s.pipeline _ := .loadCount loading
    convert hload using 1
    simp [pipeline,free,takenBlocks]
  | loadCancelled loading => exact .inr (.loadCancelled loading)
  | cleanupAndThrow running free error =>
    exact .inr (.cleanupAndThrow running (by rw [pipeline_got free]; exact error))
  | throw running free error =>
    exact .inr (.throw running (by rw [pipeline_got free]; exact error))
  | done running free ok => exact .inr (.done running (by rw [pipeline_got free]; exact ok))
  | cancel leaving => exact .inr (.cancel leaving)
  | wait waiting idle => exact .inr (.wait waiting (pipeline_idle idle))
  | finish finishing idle => exact .inr (.finish finishing (pipeline_idle idle))

/-- A statement writes to a buffer that it fills, if to any. -/
theorem step_fills (hstep : ReaderBufferStep dp p resets s t) {b : Nat}
    (changed : t.memory b ≠ s.memory b) : s.Filling b := by
  cases hstep with
  | fill turn next =>
    left
    rw [eq_of_changed changed,turn]
  | truncated turn next =>
    left
    rw [eq_of_changed changed,turn]
  | decompress before after task result ok =>
    right
    rw [eq_of_changed changed,task]
    exact ⟨_,_,List.mem_append_right _ List.mem_cons_self⟩
  | decompressError before after task result error =>
    right
    rw [eq_of_changed changed,task]
    exact ⟨_,_,List.mem_append_right _ List.mem_cons_self⟩
  | _ => exact absurd rfl changed

theorem filling_alone (h : Ordered s) {b : Nat} (filling : s.Filling b) : ¬ s.Carried b := by
  have hnone : (b,none) ∈ s.entries := by
    rcases filling with hread | ⟨n,z,hrun⟩
    · simp [entries,hread,Reading.entries]
    · have hmem : (b,none) ∈ s.tasks.flatMap DecompressTask.entries :=
        List.mem_flatMap.mpr ⟨_,hrun,List.mem_cons_self⟩
      simp [entries,hmem]
  rintro ⟨c,hc | ⟨tag,htag⟩⟩
  · cases eq_of_owns h.ledger.once hnone hc rfl
  · exact h.ledger.no_slot hnone tag c htag

variable {stream : Bytes} {memory : Nat → Bytes}

theorem Ordered.run (run : ReaderBufferRuns dp p resets stream memory s) : Ordered s :=
  invariant (Ordered.start stream memory) (fun _ _ h hs => h.step hs) run

/-- With buffers that are used again the reader does what it does on values. -/
theorem run_refines (run : ReaderBufferRuns dp p resets stream memory s) :
    ReaderRuns dp p resets stream s.pipeline :=
  simulates pipeline (Ordered.start stream memory) (fun _ _ h hs => h.step hs)
    (fun _ _ h hs => step_refines h hs) run

end

end ReaderBuffers

/-- In every run of either program, whatever the order of its threads, a buffer is in one hand
at most: the current block, a running body, one message or the sequencer, or once a queue of
free ones. What is to be read is found in it, the values are those of the pipeline, and a
statement writes only where nobody has anything to read. -/
theorem pooled_buffers_apart :
    (∀ (cp : Compressor) (xxh : Bytes → UInt64) (directMem : Bool) (failure : Option String)
      (calls : List PushOp) (memory : Nat → Bytes) (s : WriterBuffers),
      WriterBufferRuns cp xxh directMem failure calls memory s →
        Sound s.memory s.entries (WriterBuffers.slots s.sequencer) s.next ∧
        WriterRuns cp xxh directMem failure calls s.pipeline ∧
        ∀ t, WriterBufferStep cp xxh directMem failure s t → ∀ b,
          t.memory b ≠ s.memory b → s.Filling b ∧ ¬ s.Carried b) ∧
    (∀ (α : Type) (dp : Decompressor) (p : Reader α) (resets : Bool) (stream : Bytes)
      (memory : Nat → Bytes) (s : ReaderBuffers α),
      ReaderBufferRuns dp p resets stream memory s →
        Sound s.memory s.entries (ReaderBuffers.slots s.sequencer) s.next ∧
        ReaderRuns dp p resets stream s.pipeline ∧
        ∀ t, ReaderBufferStep dp p resets s t → ∀ b,
          t.memory b ≠ s.memory b → s.Filling b ∧ ¬ s.Carried b) := by
  constructor
  · intro cp xxh directMem failure calls memory s run
    have h := WriterBuffers.Ordered.run run
    refine ⟨h.ledger,WriterBuffers.run_refines run,fun t hstep b changed => ?_⟩
    have filling := WriterBuffers.step_fills h hstep changed
    exact ⟨filling,WriterBuffers.filling_alone h filling⟩
  · intro α dp p resets stream memory s run
    have h := ReaderBuffers.Ordered.run run
    refine ⟨h.ledger,ReaderBuffers.run_refines run,fun t hstep b changed => ?_⟩
    have filling := ReaderBuffers.step_fills hstep changed
    exact ⟨filling,ReaderBuffers.filling_alone h filling⟩

end QData
