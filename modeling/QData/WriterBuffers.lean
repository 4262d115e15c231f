import QData.WriterPipeline
import QData.Lib.Ledger
/-! The buffers of the multithreaded writer: which of them the caller, a task, a message or a
queue of free ones has, and what lies in them. -/
set_option autoImplicit false

namespace QData
open Words Systems Sequencing Ledger

/-! What a call of the producer does to buffers, in its order. -/

inductive ProducerAct where
  /-- `memcpy` behind the data of the current block -/
  | append (bytes : Bytes) : ProducerAct
  /-- `memcpy` to the start of the current block -/
  | refill (bytes : Bytes) : ProducerAct
  /-- submit the current block, then get another -/
  | flush : ProducerAct
  /-- get a block, copy a full one into it, submit it -/
  | copyFull (bytes : Bytes) : ProducerAct
  /-- submit a full block where it lies -/
  | direct (bytes : Bytes) : ProducerAct
  deriving DecidableEq, Repr

def flushActs (currentBlocksize : Nat) : List ProducerAct :=
  if currentBlocksize > 0 then [.flush] else []

def flushFullActs (currentBlocksize : Nat) : List ProducerAct :=
  if currentBlocksize ≥ maxBlocksize then flushActs currentBlocksize else []

def fullBlocksActs (directMem : Bool) (rest : Bytes) : List ProducerAct × Bytes :=
  if rest.length ≥ maxBlocksize then
    let block := rest.take maxBlocksize
    let more := fullBlocksActs directMem (rest.drop maxBlocksize)
    ((if directMem then .direct block else .copyFull block) :: more.1,more.2)
  else ([],rest)
termination_by rest.length
decreasing_by simp only [List.length_drop,maxBlocksize] at *; omega

/-- How much `push_data` appends to a current block of that size, if it holds data. -/
def addLength (size len : Nat) : Nat := if size > 0 then min len (maxBlocksize - size) else 0

def pushDataActs (directMem : Bool) (currentBlocksize : Nat) (inbuffer : Bytes) :
    List ProducerAct :=
  let size := if currentBlocksize ≥ maxBlocksize then 0 else currentBlocksize
  let added := addLength size inbuffer.length
  let full := fullBlocksActs directMem (inbuffer.drop added)
  flushFullActs currentBlocksize ++
    ((if size > 0 then [.append (inbuffer.take added)] else []) ++
      (flushFullActs (size+added) ++
        (full.1 ++ if full.2.length > 0 then [.refill full.2] else [])))

def producerActs (directMem : Bool) (currentBlocksize : Nat) : PushOp → List ProducerAct
  | .pod bs =>
      (if currentBlocksize > minBlocksize then flushActs currentBlocksize else []) ++ [.append bs]
  | .podContiguous bs => [.append bs]
  | .data bs => pushDataActs directMem currentBlocksize bs

namespace Producer

def act (p : Producer) : ProducerAct → Producer
  | .append bytes => p.pushPodContiguous bytes
  | .refill bytes => { p with block := bytes }
  | .flush => { (p.submitBlock p.block).nextNumber with block := [] }
  | .copyFull bytes => (p.submitBlock bytes).nextNumber
  | .direct bytes => (p.submitDirectBlock bytes).nextNumber

def acts (p : Producer) (as : List ProducerAct) : Producer := as.foldl act p

@[simp] theorem acts_nil (p : Producer) : p.acts [] = p := rfl

@[simp] theorem acts_cons (p : Producer) (a : ProducerAct) (as : List ProducerAct) :
    p.acts (a :: as) = (p.act a).acts as := rfl

theorem acts_append (p : Producer) (as bs : List ProducerAct) :
    p.acts (as ++ bs) = (p.acts as).acts bs := List.foldl_append

theorem acts_flush (p : Producer) : p.acts (flushActs p.block.length) = p.flush := by
  unfold flushActs flush
  split <;> rfl

theorem acts_flushFull (p : Producer) :
    p.acts (flushFullActs p.block.length) = p.flushFull := by
  unfold flushFullActs flushFull
  split
  · exact p.acts_flush
  · rfl

theorem acts_fullBlocks (directMem : Bool) (p : Producer) (rest : Bytes) :
    p.acts (fullBlocksActs directMem rest).1 = (p.submitFullBlocks directMem rest).1 ∧
      (fullBlocksActs directMem rest).2 = (p.submitFullBlocks directMem rest).2 := by
  induction rest using fullBlocksActs.induct directMem generalizing p with
  | case1 rest h ih =>
    rw [fullBlocksActs,if_pos h,submitFullBlocks,if_pos h]
    have hone : p.act (if directMem then .direct (rest.take maxBlocksize) else
        .copyFull (rest.take maxBlocksize)) =
          (p.submitFull directMem (rest.take maxBlocksize)).nextNumber := by
      cases directMem <;> rfl
    simp only [acts_cons,hone]
    exact ih _
  | case2 rest h =>
    rw [fullBlocksActs,if_neg h,submitFullBlocks,if_neg h]
    exact ⟨rfl,rfl⟩

theorem flushFull_size (p : Producer) :
    p.flushFull.block.length = if p.block.length ≥ maxBlocksize then 0 else p.block.length := by
  unfold flushFull
  split
  · next h =>
    have hpos : p.block.length > 0 := Nat.lt_of_lt_of_le (by decide) h
    rw [flush,if_pos hpos]
    rfl
  · rfl

theorem acts_topUp (p : Producer) (inbuffer : Bytes) :
    let size := p.block.length
    let added := addLength size inbuffer.length
    p.acts (if size > 0 then [.append (inbuffer.take added)] else []) = (p.topUp inbuffer).1 ∧
      inbuffer.drop added = (p.topUp inbuffer).2 ∧
      size+added = (p.topUp inbuffer).1.block.length := by
  unfold addLength topUp
  by_cases h : p.block.length > 0
  · simp [h,act,pushPodContiguous]
  · simp [h]

theorem acts_push (directMem : Bool) (p : Producer) (op : PushOp) :
    p.acts (producerActs directMem p.block.length op) = p.push directMem op := by
  cases op with
  | podContiguous bs => rfl
  | pod bs =>
    rw [producerActs,acts_append,push,pushPod]
    split
    · rw [acts_flush]
      rfl
    · rfl
  | data bs =>
    rw [producerActs,pushDataActs,push,pushData]
    simp only [acts_append,acts_flushFull]
    rw [← flushFull_size]
    generalize p.flushFull = p₁
    obtain ⟨happend,hrest,hlen⟩ := acts_topUp p₁ bs
    rw [happend,hrest,hlen,acts_flushFull]
    obtain ⟨hfull,hlast⟩ := acts_fullBlocks directMem (p₁.topUp bs).1.flushFull (p₁.topUp bs).2
    rw [hfull,hlast]
    split <;> rfl

theorem acts_outgoing (p : Producer) (sent : List Submission) (as : List ProducerAct) :
    ({ p with outgoing := sent ++ p.outgoing } : Producer).acts as =
      { p.acts as with outgoing := sent ++ (p.acts as).outgoing } := by
  induction as generalizing p with
  | nil => rfl
  | cons a as ih =>
    have hact : ({ p with outgoing := sent ++ p.outgoing } : Producer).act a =
        { p.act a with outgoing := sent ++ (p.act a).outgoing } := by
      cases a <;> simp [act,pushPodContiguous,submitBlock,submitDirectBlock,nextNumber]
    rw [acts_cons,hact,ih]
    rfl

end Producer

structure OrderedBlock where
  buffer : Nat
  blocknumber : Nat
  contents : Bytes
  deriving DecidableEq, Repr

/-- What a compression node is handed: `OrderedBlock`, or `OrderedPtr` into memory that the
caller does not change. -/
inductive CompressInput where
  | block (b : OrderedBlock) : CompressInput
  | pointer (bytes : Bytes) (blocknumber : Nat) : CompressInput
  deriving DecidableEq, Repr

namespace CompressInput

def blocknumber : CompressInput → Nat
  | .block b => b.blocknumber
  | .pointer _ n => n

def read (memory : Nat → Bytes) : CompressInput → Bytes
  | .block b => (memory b.buffer).take b.contents.length
  | .pointer bytes _ => bytes

def buffer : CompressInput → Option Nat
  | .block b => some b.buffer
  | .pointer _ _ => none

def submission : CompressInput → Submission
  | .block b => ⟨b.blocknumber,false,b.contents⟩
  | .pointer bytes n => ⟨n,true,bytes⟩

def entries : CompressInput → List (Entry UInt8)
  | .block b => [(b.buffer,some b.contents)]
  | .pointer _ _ => []

end CompressInput

inductive CompressTask where
  | waiting (input : CompressInput) : CompressTask
  | running (input : CompressInput) (zblock : Nat) : CompressTask
  deriving DecidableEq, Repr

def CompressTask.input : CompressTask → CompressInput
  | .waiting input => input
  | .running input _ => input

def CompressTask.entries : CompressTask → List (Entry UInt8)
  | .waiting input => input.entries
  | .running input zblock => (zblock,none) :: input.entries

structure OrderedZblock where
  buffer : Nat
  blocknumber : Nat
  compressed : Compressed

def OrderedZblock.entry (z : OrderedZblock) : Entry UInt8 := (z.buffer,some z.compressed.bytes)

/-- What a compression body returns, and the block that it has still to push to the free ones.
Without one it is a message. -/
structure CompressOutput where
  zblock : OrderedZblock
  source : Option Nat

def CompressOutput.entries (o : CompressOutput) : List (Entry UInt8) :=
  o.zblock.entry :: free o.source.toList

/-- `BlockCompressWriterMT` with the memory of its buffers. A buffer is a number, given when it
is made; what lies in one is whatever was written there. -/
structure WriterBuffers where
  calls : List PushOp
  memory : Nat → Bytes
  next : Nat := 1
  acts : List ProducerAct := []
  currentBlock : Nat := 0
  /-- `flush` has submitted the current block, and `current_block` is yet to be assigned -/
  submitted : Bool := false
  /-- what the current block holds up to `current_blocksize` -/
  block : Bytes := []
  blocknumber : Nat := 0
  /-- `full_block` in `push_data`, with what it holds once it was copied -/
  fullBlock : Option (Entry UInt8) := none
  availableBlocks : List Nat := []
  availableZblocks : List Nat := []
  tasks : List CompressTask := []
  outputs : List CompressOutput := []
  sequencer : Sequencer OrderedZblock := .empty
  /-- the body of the writer node, and whether it has written its block -/
  writing : Option (OrderedZblock × Bool) := none
  out : Bytes := []
  hashed : Bytes := []
  phase : WriterPhase := .pushing

namespace WriterBuffers

def Idle (s : WriterBuffers) : Prop :=
  s.acts = [] ∧ s.tasks = [] ∧ s.outputs = [] ∧ s.sequencer.next = none ∧ s.writing = none

def writingEntries : Option (OrderedZblock × Bool) → List (Entry UInt8)
  | some (z,false) => [z.entry]
  | some (z,true) => [(z.buffer,none)]
  | none => []

/-- All buffers that anyone has, with what must be found in them; those in the sequencer
apart. -/
def entries (s : WriterBuffers) : List (Entry UInt8) :=
  (if s.submitted then [] else [(s.currentBlock,some s.block)]) ++
    (s.fullBlock.toList ++ (s.tasks.flatMap CompressTask.entries ++
      (s.outputs.flatMap CompressOutput.entries ++ (writingEntries s.writing ++
        (free s.availableBlocks ++ free s.availableZblocks)))))

def slots (q : Sequencer OrderedZblock) : Nat → Option (Nat × Bytes) :=
  (q.map fun z => (z.buffer,z.compressed.bytes)).slots

def Filling (s : WriterBuffers) (b : Nat) : Prop :=
  (s.submitted = false ∧ b = s.currentBlock) ∨ s.fullBlock = some (b,none) ∨
    ∃ input, .running input b ∈ s.tasks

/-- The buffers with data that somebody else has still to read. -/
def Carried (s : WriterBuffers) (b : Nat) : Prop :=
  ∃ c, (b,some c) ∈ s.fullBlock.toList ++ (s.tasks.flatMap CompressTask.entries ++
      (s.outputs.flatMap CompressOutput.entries ++ writingEntries s.writing)) ∨
    ∃ tag, slots s.sequencer tag = some (b,c)

end WriterBuffers

section
variable (cp : Compressor) (xxh : Bytes → UInt64) (directMem : Bool) (failure : Option String)

/-- One statement of the caller or of the body of a node. -/
inductive WriterBufferStep : WriterBuffers → WriterBuffers → Prop
  | call {s : WriterBuffers} {op : PushOp} {calls : List PushOp} (pushing : s.phase = .pushing)
      (done : s.acts = []) (next : s.calls = op :: calls) :
      WriterBufferStep s { s with
        calls := calls, acts := producerActs directMem s.block.length op }
  | finish {s : WriterBuffers} (pushing : s.phase = .pushing) (done : s.acts = [])
      (ended : s.calls = []) (ok : failure = none) :
      WriterBufferStep s { s with acts := flushActs s.block.length, phase := .waiting }
  | throw {s : WriterBuffers} {msg : String} (pushing : s.phase = .pushing) (done : s.acts = [])
      (ended : s.calls = []) (failed : failure = some msg) :
      WriterBufferStep s { s with phase := .thrown msg }
  | append {s : WriterBuffers} {bytes : Bytes} {acts : List ProducerAct}
      (act : s.acts = .append bytes :: acts) :
      WriterBufferStep s { s with
        acts := acts
        memory := Function.update s.memory s.currentBlock
          (writeAt (s.memory s.currentBlock) s.block.length bytes)
        block := s.block ++ bytes }
  | refill {s : WriterBuffers} {bytes : Bytes} {acts : List ProducerAct}
      (act : s.acts = .refill bytes :: acts) :
      WriterBufferStep s { s with
        acts := acts
        memory := Function.update s.memory s.currentBlock
          (writeAt (s.memory s.currentBlock) 0 bytes)
        block := bytes }
  | submit {s : WriterBuffers} {acts : List ProducerAct} (act : s.acts = .flush :: acts)
      (first : s.submitted = false) :
      WriterBufferStep s { s with
        tasks := s.tasks ++ [.waiting (.block ⟨s.currentBlock,s.blocknumber,s.block⟩)]
        blocknumber := s.blocknumber+1
        block := []
        submitted := true }
  | renew {s : WriterBuffers} {acts : List ProducerAct} {b next : Nat} {queue : List Nat}
      (act : s.acts = .flush :: acts) (second : s.submitted = true)
      (got : Obtains s.availableBlocks s.next b queue next) :
      WriterBufferStep s { s with
        acts := acts
        currentBlock := b
        submitted := false
        availableBlocks := queue
        next := next }
  | takeFull {s : WriterBuffers} {bytes : Bytes} {acts : List ProducerAct} {b next : Nat}
      {queue : List Nat} (act : s.acts = .copyFull bytes :: acts) (first : s.fullBlock = none)
      (got : Obtains s.availableBlocks s.next b queue next) :
      WriterBufferStep s { s with
        fullBlock := some (b,none)
        availableBlocks := queue
        next := next }
  | copyFull {s : WriterBuffers} {bytes : Bytes} {acts : List ProducerAct} {b : Nat}
      (act : s.acts = .copyFull bytes :: acts) (second : s.fullBlock = some (b,none)) :
      WriterBufferStep s { s with
        memory := Function.update s.memory b (writeAt (s.memory b) 0 bytes)
        fullBlock := some (b,some bytes) }
  | submitFull {s : WriterBuffers} {bytes contents : Bytes} {acts : List ProducerAct} {b : Nat}
      (act : s.acts = .copyFull bytes :: acts) (third : s.fullBlock = some (b,some contents)) :
      WriterBufferStep s { s with
        acts := acts
        tasks := s.tasks ++ [.waiting (.block ⟨b,s.blocknumber,contents⟩)]
        fullBlock := none
        blocknumber := s.blocknumber+1 }
  | submitDirect {s : WriterBuffers} {bytes : Bytes} {acts : List ProducerAct}
      (act : s.acts = .direct bytes :: acts) :
      WriterBufferStep s { s with
        acts := acts
        tasks := s.tasks ++ [.waiting (.pointer bytes s.blocknumber)]
        blocknumber := s.blocknumber+1 }
  | start {s : WriterBuffers} (before after : List CompressTask) {input : CompressInput}
      {z next : Nat} {queue : List Nat} (task : s.tasks = before ++ .waiting input :: after)
      (got : Obtains s.availableZblocks s.next z queue next) :
      WriterBufferStep s { s with
        tasks := before ++ .running input z :: after
        availableZblocks := queue
        next := next }
  | compress {s : WriterBuffers} (before after : List CompressTask) {input : CompressInput}
      {z : Nat} {c : Compressed} (task : s.tasks = before ++ .running input z :: after)
      (result : c = cp input.blocknumber (input.read s.memory)) :
      WriterBufferStep s { s with
        memory := Function.update s.memory z (writeAt (s.memory z) 0 c.bytes)
        tasks := before ++ after
        outputs := s.outputs ++ [⟨⟨z,input.blocknumber,c⟩,input.buffer⟩] }
  | recycleBlock {s : WriterBuffers} (before after : List CompressOutput) {z : OrderedZblock}
      {b : Nat} (output : s.outputs = before ++ ⟨z,some b⟩ :: after) :
      WriterBufferStep s { s with
        outputs := before ++ ⟨z,none⟩ :: after
        availableBlocks := s.availableBlocks ++ [b] }
  | sequence {s : WriterBuffers} (before after : List CompressOutput) {z : OrderedZblock}
      (output : s.outputs = before ++ ⟨z,none⟩ :: after) :
      WriterBufferStep s { s with
        outputs := before ++ after
        sequencer := s.sequencer.put z.blocknumber z }
  | take {s : WriterBuffers} {z : OrderedZblock} (free : s.writing = none)
      (next : s.sequencer.next = some z) :
      WriterBufferStep s { s with sequencer := s.sequencer.release, writing := some (z,false) }
  | write {s : WriterBuffers} {z : OrderedZblock} {bytes : Bytes}
      (turn : s.writing = some (z,false))
      (found : bytes = toBytes 4 z.compressed.zsize ++
        (s.memory z.buffer).take (compressedBlockSize z.compressed.zsize)) :
      WriterBufferStep s { s with
        out := s.out ++ bytes, hashed := s.hashed ++ bytes, writing := some (z,true) }
  | recycleZblock {s : WriterBuffers} {z : OrderedZblock} (written : s.writing = some (z,true)) :
      WriterBufferStep s { s with
        writing := none, availableZblocks := s.availableZblocks ++ [z.buffer] }
  | wait {s : WriterBuffers} (waiting : s.phase = .waiting) (idle : s.Idle) :
      WriterBufferStep s { s with phase := .finished (digest xxh s.hashed) }

abbrev WriterBufferRuns (calls : List PushOp) (memory : Nat → Bytes) : WriterBuffers → Prop :=
  Runs (WriterBufferStep cp xxh directMem failure) { calls := calls, memory := memory }

end

theorem prefix_writeAt_end {mem front bs : Bytes} (h : front <+: mem) :
    front ++ bs <+: writeAt mem front.length bs := by
  obtain ⟨rest,rfl⟩ := h
  rw [writeAt,List.take_left]
  exact List.prefix_append ..

theorem prefix_writeAt_zero (mem bs : Bytes) : bs <+: writeAt mem 0 bs := by
  rw [writeAt,List.take_zero,List.nil_append]
  exact List.prefix_append ..

namespace WriterBuffers

structure Ordered (s : WriterBuffers) : Prop where
  ledger : Sound s.memory s.entries (slots s.sequencer) s.next
  submitting : s.submitted = true → s.block = [] ∧ ∃ acts, s.acts = .flush :: acts
  copied : ∀ b contents, s.fullBlock = some (b,some contents) →
    ∃ acts, s.acts = .copyFull contents :: acts

theorem Ordered.start (calls : List PushOp) (memory : Nat → Bytes) :
    Ordered { calls := calls, memory := memory } := by
  refine ⟨⟨?_,nofun,nofun,?_,nofun,?_,nofun⟩,nofun,nofun⟩
  · intro b
    simp [entries,writingEntries]
    split <;> omega
  · intro b hb
    have hb1 : 1 ≤ b := hb
    have hne : 0 ≠ b := by omega
    simp [entries,writingEntries,hne]
  · intro b c hc
    simp [entries,writingEntries] at hc
    rw [hc.2]
    exact List.nil_prefix

section
variable {s : WriterBuffers}

theorem Ordered.not_submitted (h : Ordered s) (hs : ∀ acts, s.acts ≠ .flush :: acts) :
    s.submitted = false := by
  cases hsub : s.submitted with
  | false => rfl
  | true =>
    obtain ⟨-,acts,hacts⟩ := h.submitting hsub
    exact absurd hacts (hs acts)

theorem Ordered.not_copied (h : Ordered s) (hs : ∀ bytes acts, s.acts ≠ .copyFull bytes :: acts)
    (b : Nat) (contents : Bytes) : s.fullBlock ≠ some (b,some contents) := by
  intro hfull
  obtain ⟨acts,hacts⟩ := h.copied b contents hfull
  exact hs contents acts hacts

theorem Ordered.between (h : Ordered s) (done : s.acts = []) {calls : List PushOp}
    {acts : List ProducerAct} {phase : WriterPhase} :
    Ordered { s with calls := calls, acts := acts, phase := phase } := by
  refine ⟨h.ledger,fun hs => ?_,fun b contents hf => ?_⟩
  · rw [h.not_submitted (by simp [done])] at hs
    cases hs
  · exact absurd hf (h.not_copied (by simp [done]) b contents)

theorem Ordered.append (h : Ordered s) {bytes : Bytes} {acts : List ProducerAct}
    (act : s.acts = .append bytes :: acts) :
    Ordered { s with
      acts := acts
      memory := Function.update s.memory s.currentBlock
        (writeAt (s.memory s.currentBlock) s.block.length bytes)
      block := s.block ++ bytes } := by
  have hsub := h.not_submitted (by simp [act])
  refine ⟨?_,?_,?_⟩
  · refine h.ledger.fills (e := (s.currentBlock,some (s.block ++ bytes))) ?_ ?_ ?_ ?_
    · simp [entries,hsub]
    · rintro c ⟨⟩
      exact prefix_writeAt_end (h.ledger.intact _ _ (by simp [entries,hsub]))
    · intro b
      simp [entries,hsub,writingEntries]
    · intro b c
      simp [entries,hsub,writingEntries]
      grind
  · rw [hsub]
    nofun
  · intro b contents hfull
    exact absurd hfull (h.not_copied (by simp [act]) b contents)

theorem Ordered.refill (h : Ordered s) {bytes : Bytes} {acts : List ProducerAct}
    (act : s.acts = .refill bytes :: acts) :
    Ordered { s with
      acts := acts
      memory := Function.update s.memory s.currentBlock
        (writeAt (s.memory s.currentBlock) 0 bytes)
      block := bytes } := by
  have hsub := h.not_submitted (by simp [act])
  refine ⟨?_,?_,?_⟩
  · refine h.ledger.fills (e := (s.currentBlock,some bytes)) ?_ ?_ ?_ ?_
    · simp [entries,hsub]
    · rintro c ⟨⟩
      exact prefix_writeAt_zero _ _
    · intro b
      simp [entries,hsub,writingEntries]
    · intro b c
      simp [entries,hsub,writingEntries]
      grind
  · rw [hsub]
    nofun
  · intro b contents hfull
    exact absurd hfull (h.not_copied (by simp [act]) b contents)

theorem Ordered.submit (h : Ordered s) {acts : List ProducerAct} (act : s.acts = .flush :: acts)
    (first : s.submitted = false) :
    Ordered { s with
      tasks := s.tasks ++ [.waiting (.block ⟨s.currentBlock,s.blocknumber,s.block⟩)]
      blocknumber := s.blocknumber+1
      block := []
      submitted := true } := by
  refine ⟨?_,fun _ => ⟨rfl,acts,act⟩,h.copied⟩
  refine h.ledger.moves ?_ ?_
  · intro b
    simp [entries,first,writingEntries,CompressTask.entries,CompressInput.entries]
    omega
  · intro b c
    simp [entries,first,writingEntries,CompressTask.entries,CompressInput.entries]
    grind

theorem Ordered.renew (h : Ordered s) {acts : List ProducerAct} {b next : Nat} {queue : List Nat}
    (act : s.acts = .flush :: acts) (second : s.submitted = true)
    (got : Obtains s.availableBlocks s.next b queue next) :
    Ordered { s with
      acts := acts
      currentBlock := b
      submitted := false
      availableBlocks := queue
      next := next } := by
  have hblock := (h.submitting second).1
  refine ⟨?_,nofun,?_⟩
  · refine h.ledger.obtains got ?_ ?_
    · intro x
      simp [entries,second,writingEntries]
      omega
    · intro x c
      simp [entries,second,writingEntries,hblock]
      grind
  · intro b contents hfull
    exact absurd hfull (h.not_copied (by simp [act]) b contents)

theorem Ordered.takeFull (h : Ordered s) {b next : Nat} {queue : List Nat}
    (first : s.fullBlock = none) (got : Obtains s.availableBlocks s.next b queue next) :
    Ordered { s with fullBlock := some (b,none), availableBlocks := queue, next := next } := by
  refine ⟨?_,h.submitting,nofun⟩
  refine h.ledger.obtains got ?_ ?_
  · intro x
    simp [entries,first,writingEntries]
    omega
  · intro x c
    simp [entries,first,writingEntries]
    grind

theorem Ordered.copyFull (h : Ordered s) {bytes : Bytes} {acts : List ProducerAct} {b : Nat}
    (act : s.acts = .copyFull bytes :: acts) (second : s.fullBlock = some (b,none)) :
    Ordered { s with
      memory := Function.update s.memory b (writeAt (s.memory b) 0 bytes)
      fullBlock := some (b,some bytes) } := by
  refine ⟨?_,h.submitting,?_⟩
  · refine h.ledger.fills (e := (b,some bytes)) ?_ ?_ ?_ ?_
    · simp [entries]
    · rintro c ⟨⟩
      exact prefix_writeAt_zero _ _
    · intro x
      simp [entries,second,writingEntries]
    · intro x c
      simp [entries,second,writingEntries]
      grind
  · rintro x contents ⟨⟩
    exact ⟨acts,act⟩

theorem Ordered.submitFull (h : Ordered s) {bytes contents : Bytes} {acts : List ProducerAct}
    {b : Nat} (act : s.acts = .copyFull bytes :: acts)
    (third : s.fullBlock = some (b,some contents)) :
    Ordered { s with
      acts := acts
      tasks := s.tasks ++ [.waiting (.block ⟨b,s.blocknumber,contents⟩)]
      fullBlock := none
      blocknumber := s.blocknumber+1 } := by
  have hsub := h.not_submitted (by simp [act])
  refine ⟨?_,?_,nofun⟩
  · refine h.ledger.moves ?_ ?_
    · intro x
      simp [entries,third,writingEntries,CompressTask.entries,CompressInput.entries]
      omega
    · intro x c
      simp [entries,third,writingEntries,CompressTask.entries,CompressInput.entries]
      grind
  · rw [hsub]
    nofun

theorem Ordered.submitDirect (h : Ordered s) {bytes : Bytes} {acts : List ProducerAct}
    (act : s.acts = .direct bytes :: acts) :
    Ordered { s with
      acts := acts
      tasks := s.tasks ++ [.waiting (.pointer bytes s.blocknumber)]
      blocknumber := s.blocknumber+1 } := by
  have hsub := h.not_submitted (by simp [act])
  refine ⟨?_,?_,?_⟩
  · refine h.ledger.moves ?_ ?_
    · intro x
      simp [entries,writingEntries,CompressTask.entries,CompressInput.entries]
    · intro x c
      simp [entries,writingEntries,CompressTask.entries,CompressInput.entries]
      grind
  · rw [hsub]
    nofun
  · intro b contents hfull
    exact absurd hfull (h.not_copied (by simp [act]) b contents)

theorem Ordered.start_task (h : Ordered s) (before after : List CompressTask)
    {input : CompressInput} {z next : Nat} {queue : List Nat}
    (task : s.tasks = before ++ .waiting input :: after)
    (got : Obtains s.availableZblocks s.next z queue next) :
    Ordered { s with
      tasks := before ++ .running input z :: after
      availableZblocks := queue
      next := next } := by
  refine ⟨?_,h.submitting,h.copied⟩
  refine h.ledger.obtains got ?_ ?_
  · intro x
    simp [entries,task,writingEntries,CompressTask.entries]
    omega
  · intro x c
    simp [entries,task,writingEntries,CompressTask.entries]
    grind

theorem Ordered.compress (h : Ordered s) (before after : List CompressTask)
    {input : CompressInput} {z : Nat} (c : Compressed)
    (task : s.tasks = before ++ .running input z :: after) :
    Ordered { s with
      memory := Function.update s.memory z (writeAt (s.memory z) 0 c.bytes)
      tasks := before ++ after
      outputs := s.outputs ++ [⟨⟨z,input.blocknumber,c⟩,input.buffer⟩] } := by
  refine ⟨?_,h.submitting,h.copied⟩
  refine h.ledger.fills (e := (z,some c.bytes)) ?_ ?_ ?_ ?_
  · simp [entries,CompressOutput.entries,OrderedZblock.entry]
  · rintro c ⟨⟩
    exact prefix_writeAt_zero _ _
  · intro x
    cases input <;> simp [entries,task,writingEntries,CompressTask.entries,CompressInput.entries,
      CompressOutput.entries,OrderedZblock.entry,CompressInput.buffer] <;> omega
  · intro x c'
    cases input <;> simp [entries,task,writingEntries,CompressTask.entries,CompressInput.entries,
      CompressOutput.entries,OrderedZblock.entry,CompressInput.buffer] <;> grind

theorem Ordered.recycleBlock (h : Ordered s) (before after : List CompressOutput)
    {z : OrderedZblock} {b : Nat} (output : s.outputs = before ++ ⟨z,some b⟩ :: after) :
    Ordered { s with
      outputs := before ++ ⟨z,none⟩ :: after
      availableBlocks := s.availableBlocks ++ [b] } := by
  refine ⟨?_,h.submitting,h.copied⟩
  refine h.ledger.moves ?_ ?_
  · intro x
    simp [entries,output,writingEntries,CompressOutput.entries]
    omega
  · intro x c
    simp [entries,output,writingEntries,CompressOutput.entries]
    grind

theorem Ordered.sequence (h : Ordered s) (before after : List CompressOutput)
    {z : OrderedZblock} (output : s.outputs = before ++ ⟨z,none⟩ :: after) :
    Ordered { s with
      outputs := before ++ after
      sequencer := s.sequencer.put z.blocknumber z } := by
  refine ⟨?_,h.submitting,h.copied⟩
  refine Sound.puts h.ledger z.blocknumber ?_ ?_ ?_
  · simp [entries,output,CompressOutput.entries,OrderedZblock.entry]
  · intro x
    simp [entries,output,writingEntries,CompressOutput.entries,OrderedZblock.entry]
    omega
  · intro x c
    simp [entries,output,writingEntries,CompressOutput.entries]
    grind

theorem Ordered.take (h : Ordered s) {z : OrderedZblock} (free : s.writing = none)
    (next : s.sequencer.next = some z) :
    Ordered { s with sequencer := s.sequencer.release, writing := some (z,false) } := by
  refine ⟨?_,h.submitting,h.copied⟩
  refine Sound.takes h.ledger next ?_ ?_
  · intro x
    simp [entries,free,writingEntries,OrderedZblock.entry]
    omega
  · intro x c
    simp [entries,free,writingEntries,OrderedZblock.entry]
    grind

theorem Ordered.written (h : Ordered s) {z : OrderedZblock} {bytes : Bytes}
    (turn : s.writing = some (z,false)) :
    Ordered { s with
      out := s.out ++ bytes, hashed := s.hashed ++ bytes, writing := some (z,true) } := by
  refine ⟨?_,h.submitting,h.copied⟩
  refine h.ledger.moves ?_ ?_
  · intro x
    simp [entries,turn,writingEntries,OrderedZblock.entry]
  · intro x c
    simp [entries,turn,writingEntries,OrderedZblock.entry]
    grind

theorem Ordered.recycleZblock (h : Ordered s) {z : OrderedZblock}
    (written : s.writing = some (z,true)) :
    Ordered { s with
      writing := none, availableZblocks := s.availableZblocks ++ [z.buffer] } := by
  refine ⟨?_,h.submitting,h.copied⟩
  refine h.ledger.moves ?_ ?_
  · intro x
    simp [entries,written,writingEntries]
    omega
  · intro x c
    simp [entries,written,writingEntries]
    grind

variable {t : WriterBuffers} {cp : Compressor} {xxh : Bytes → UInt64} {directMem : Bool}
  {failure : Option String}

theorem Ordered.step (h : Ordered s) (hstep : WriterBufferStep cp xxh directMem failure s t) :
    Ordered t := by
  cases hstep with
  | call pushing done next => exact h.between done
  | finish pushing done ended ok => exact h.between done
  | throw pushing done ended failed => exact ⟨h.ledger,h.submitting,h.copied⟩
  | append act => exact h.append act
  | refill act => exact h.refill act
  | submit act first => exact h.submit act first
  | renew act second got => exact h.renew act second got
  | takeFull act first got => exact h.takeFull first got
  | copyFull act second => exact h.copyFull act second
  | submitFull act third => exact h.submitFull act third
  | submitDirect act => exact h.submitDirect act
  | start before after task got => exact h.start_task before after task got
  | compress before after task result => exact h.compress before after _ task
  | recycleBlock before after output => exact h.recycleBlock before after output
  | sequence before after output => exact h.sequence before after output
  | take free next => exact h.take free next
  | write turn found => exact h.written turn
  | recycleZblock written => exact h.recycleZblock written
  | wait waiting idle => exact ⟨h.ledger,h.submitting,h.copied⟩

def unwritten : Option (OrderedZblock × Bool) → Bytes
  | some (z,false) => z.compressed.emit
  | some (_,true) => []
  | none => []

/-- The pipeline of values: the buffers left out, a call made as a whole, and a block written as
soon as it is taken. -/
def pipeline (s : WriterBuffers) : WriterPipeline where
  calls := s.calls
  producer := Producer.acts ⟨s.block,s.blocknumber,[]⟩
    (if s.submitted then s.acts.tail else s.acts)
  tasks := s.tasks.map fun t => t.input.submission
  compressed := s.outputs.map fun o => (o.zblock.blocknumber,o.zblock.compressed)
  sequencer := s.sequencer.map OrderedZblock.compressed
  out := s.out ++ unwritten s.writing
  hashed := s.hashed ++ unwritten s.writing
  phase := s.phase

theorem pipeline_done (h : Ordered s) (done : s.acts = []) :
    s.submitted = false ∧ s.pipeline.producer = ⟨s.block,s.blocknumber,[]⟩ := by
  have hsub := h.not_submitted (by simp [done])
  refine ⟨hsub,?_⟩
  simp [pipeline,hsub,done]

theorem pipeline_submits (hsub : s.submitted = false) {a : ProducerAct} {acts : List ProducerAct}
    (hacts : s.acts = a :: acts) (sub : Submission) (block : Bytes)
    (ha : Producer.act ⟨s.block,s.blocknumber,[]⟩ a = ⟨block,s.blocknumber+1,[sub]⟩) :
    s.pipeline.producer =
      { Producer.acts ⟨block,s.blocknumber+1,[]⟩ acts with
        outgoing := sub :: (Producer.acts ⟨block,s.blocknumber+1,[]⟩ acts).outgoing } := by
  have hout := Producer.acts_outgoing ⟨block,s.blocknumber+1,[]⟩ [sub] acts
  have hacts' : s.pipeline.producer = Producer.acts ⟨s.block,s.blocknumber,[]⟩ (a :: acts) := by
    simp [pipeline,hsub,hacts]
  rw [hacts',Producer.acts_cons,ha]
  exact hout

theorem read_input (h : Ordered s) {input : CompressInput}
    (hin : ∀ x ∈ input.entries, x ∈ s.entries) : input.read s.memory = input.submission.bytes := by
  cases input with
  | pointer bytes n => rfl
  | block b =>
    have hpre := h.ledger.intact b.buffer b.contents (hin _ (List.mem_singleton_self _))
    exact (List.prefix_iff_eq_take.mp hpre).symm

theorem refines_submit {acts : List ProducerAct} (act : s.acts = .flush :: acts)
    (first : s.submitted = false) :
    WriterStep cp xxh directMem failure s.pipeline (pipeline { s with
      tasks := s.tasks ++ [.waiting (.block ⟨s.currentBlock,s.blocknumber,s.block⟩)]
      blocknumber := s.blocknumber+1
      block := []
      submitted := true }) := by
  have hp := pipeline_submits first act ⟨s.blocknumber,false,s.block⟩ [] rfl
  have hstep : WriterStep cp xxh directMem failure s.pipeline _ :=
    .submit (congrArg Producer.outgoing hp)
  rw [hp] at hstep
  convert hstep using 1
  simp [pipeline,act,CompressTask.input,CompressInput.submission]

theorem refines_submitFull (h : Ordered s) {bytes contents : Bytes} {acts : List ProducerAct}
    {b : Nat} (act : s.acts = .copyFull bytes :: acts)
    (third : s.fullBlock = some (b,some contents)) :
    WriterStep cp xxh directMem failure s.pipeline (pipeline { s with
      acts := acts
      tasks := s.tasks ++ [.waiting (.block ⟨b,s.blocknumber,contents⟩)]
      fullBlock := none
      blocknumber := s.blocknumber+1 }) := by
  have hsub := h.not_submitted (by simp [act])
  obtain ⟨acts',hacts⟩ := h.copied b contents third
  rw [act] at hacts
  cases hacts
  have hp := pipeline_submits hsub act ⟨s.blocknumber,false,bytes⟩ s.block rfl
  have hstep : WriterStep cp xxh directMem failure s.pipeline _ :=
    .submit (congrArg Producer.outgoing hp)
  rw [hp] at hstep
  convert hstep using 1
  simp [pipeline,hsub,CompressTask.input,CompressInput.submission]

theorem refines_submitDirect (h : Ordered s) {bytes : Bytes} {acts : List ProducerAct}
    (act : s.acts = .direct bytes :: acts) :
    WriterStep cp xxh directMem failure s.pipeline (pipeline { s with
      acts := acts
      tasks := s.tasks ++ [.waiting (.pointer bytes s.blocknumber)]
      blocknumber := s.blocknumber+1 }) := by
  have hsub := h.not_submitted (by simp [act])
  have hp := pipeline_submits hsub act ⟨s.blocknumber,true,bytes⟩ s.block rfl
  have hstep : WriterStep cp xxh directMem failure s.pipeline _ :=
    .submit (congrArg Producer.outgoing hp)
  rw [hp] at hstep
  convert hstep using 1
  simp [pipeline,hsub,CompressTask.input,CompressInput.submission]

theorem refines_compress (h : Ordered s) (before after : List CompressTask)
    {input : CompressInput} {z : Nat} (task : s.tasks = before ++ .running input z :: after)
    (memory : Nat → Bytes) :
    WriterStep cp xxh directMem failure s.pipeline (pipeline { s with
      memory := memory
      tasks := before ++ after
      outputs := s.outputs ++
        [⟨⟨z,input.blocknumber,cp input.blocknumber (input.read s.memory)⟩,input.buffer⟩] }) := by
  have hread : input.read s.memory = input.submission.bytes := by
    refine read_input h fun x hx => ?_
    simp [entries,task,CompressTask.entries,hx]
  have hnumber : input.blocknumber = input.submission.number := by
    cases input <;> rfl
  have htasks : s.pipeline.tasks = (before.map fun t => t.input.submission) ++
      input.submission :: after.map fun t => t.input.submission := by
    simp [pipeline,task,CompressTask.input]
  have hstep : WriterStep cp xxh directMem failure s.pipeline _ := .compress _ _ htasks
  convert hstep using 1
  simp [pipeline,hread,hnumber]

theorem refines_sequence (before after : List CompressOutput) {z : OrderedZblock}
    (output : s.outputs = before ++ ⟨z,none⟩ :: after) :
    WriterStep cp xxh directMem failure s.pipeline (pipeline { s with
      outputs := before ++ after
      sequencer := s.sequencer.put z.blocknumber z }) := by
  have hcompressed : s.pipeline.compressed =
      (before.map fun o => (o.zblock.blocknumber,o.zblock.compressed)) ++
        (z.blocknumber,z.compressed) ::
          after.map fun o => (o.zblock.blocknumber,o.zblock.compressed) := by
    simp [pipeline,output]
  have hstep : WriterStep cp xxh directMem failure s.pipeline _ := .sequence _ _ hcompressed
  convert hstep using 1
  simp [pipeline,Sequencer.map_put]

theorem refines_take {z : OrderedZblock} (free : s.writing = none)
    (next : s.sequencer.next = some z) :
    WriterStep cp xxh directMem failure s.pipeline
      (pipeline { s with sequencer := s.sequencer.release, writing := some (z,false) }) := by
  have hstep : WriterStep cp xxh directMem failure s.pipeline _ :=
    .write (z := z.compressed) (by simp [pipeline,Sequencer.next_map,next])
  convert hstep using 1
  simp [pipeline,Sequencer.map_release,free,unwritten]

theorem refines_write (h : Ordered s) {z : OrderedZblock} (turn : s.writing = some (z,false)) :
    toBytes 4 z.compressed.zsize ++
        (s.memory z.buffer).take (compressedBlockSize z.compressed.zsize) = z.compressed.emit := by
  have hpre : z.compressed.bytes <+: s.memory z.buffer := by
    apply h.ledger.intact
    simp [entries,turn,writingEntries,OrderedZblock.entry]
  rw [← z.compressed.size_eq,← List.prefix_iff_eq_take.mp hpre,Compressed.emit]

/-- A statement of the writer is a step of the pipeline, or none. -/
theorem step_refines (h : Ordered s) (hstep : WriterBufferStep cp xxh directMem failure s t) :
    t.pipeline = s.pipeline ∨ WriterStep cp xxh directMem failure s.pipeline t.pipeline := by
  cases hstep with
  | call pushing done next =>
    right
    obtain ⟨hsub,hp⟩ := pipeline_done h done
    have hcall : WriterStep cp xxh directMem failure s.pipeline _ :=
      .call pushing (by rw [hp]) next
    convert hcall using 1
    rw [hp,← Producer.acts_push]
    simp [pipeline,hsub]
  | finish pushing done ended ok =>
    right
    obtain ⟨hsub,hp⟩ := pipeline_done h done
    have hfinish : WriterStep cp xxh directMem failure s.pipeline _ :=
      .finish pushing (by rw [hp]) ended ok
    convert hfinish using 1
    rw [hp,← Producer.acts_flush]
    simp [pipeline,hsub]
  | throw pushing done ended failed =>
    right
    obtain ⟨-,hp⟩ := pipeline_done h done
    exact .throw pushing (by rw [hp]) ended failed
  | append act =>
    left
    have hsub := h.not_submitted (by simp [act])
    simp [pipeline,hsub,act,Producer.act,Producer.pushPodContiguous]
  | refill act =>
    left
    have hsub := h.not_submitted (by simp [act])
    simp [pipeline,hsub,act,Producer.act]
  | submit act first => exact .inr (refines_submit act first)
  | renew act second got =>
    left
    simp [pipeline,second,act]
  | takeFull act first got => exact .inl rfl
  | copyFull act second => exact .inl rfl
  | submitFull act third => exact .inr (refines_submitFull h act third)
  | submitDirect act => exact .inr (refines_submitDirect h act)
  | start before after task got =>
    left
    simp [pipeline,task,CompressTask.input]
  | compress before after task result =>
    subst result
    exact .inr (refines_compress h before after task _)
  | recycleBlock before after output =>
    left
    simp [pipeline,output]
  | sequence before after output => exact .inr (refines_sequence before after output)
  | take free next => exact .inr (refines_take free next)
  | write turn found =>
    left
    rw [refines_write h turn] at found
    simp [pipeline,found,turn,unwritten]
  | recycleZblock written =>
    left
    simp [pipeline,written,unwritten]
  | wait waiting idle =>
    right
    obtain ⟨done,htasks,houtputs,hnext,hwriting⟩ := idle
    obtain ⟨-,hp⟩ := pipeline_done h done
    have hidle : s.pipeline.Idle := by
      refine ⟨by rw [hp],?_,?_,?_⟩
      · simp [pipeline,htasks]
      · simp [pipeline,houtputs]
      · simp [pipeline,Sequencer.next_map,hnext]
    have hwait : WriterStep cp xxh directMem failure s.pipeline _ := .wait waiting hidle
    convert hwait using 1
    simp [pipeline,hwriting,unwritten]

theorem step_fills (h : Ordered s) (hstep : WriterBufferStep cp xxh directMem failure s t)
    {b : Nat} (changed : t.memory b ≠ s.memory b) : s.Filling b := by
  cases hstep with
  | append act => exact .inl ⟨h.not_submitted (by simp [act]),eq_of_changed changed⟩
  | refill act => exact .inl ⟨h.not_submitted (by simp [act]),eq_of_changed changed⟩
  | copyFull act second =>
    right; left
    rw [eq_of_changed changed,second]
  | compress before after task result =>
    right; right
    rw [eq_of_changed changed,task]
    exact ⟨_,List.mem_append_right _ List.mem_cons_self⟩
  | _ => exact absurd rfl changed

theorem filling_alone (h : Ordered s) {b : Nat} (filling : s.Filling b) : ¬ s.Carried b := by
  rintro ⟨c,hc⟩
  have hentry : (b,some c) ∈ s.fullBlock.toList ++ (s.tasks.flatMap CompressTask.entries ++
      (s.outputs.flatMap CompressOutput.entries ++ writingEntries s.writing)) →
      (b,some c) ∈ s.entries := by
    simp only [entries,List.mem_append]
    tauto
  have hnone : (b,none) ∈ s.entries → False := by
    intro hn
    rcases hc with hc | ⟨tag,htag⟩
    · cases eq_of_owns h.ledger.once hn (hentry hc) rfl
    · exact h.ledger.no_slot hn tag c htag
  rcases filling with ⟨hsub,rfl⟩ | hfull | ⟨input,hrun⟩
  · have hcur : (s.currentBlock,some s.block) ∈ s.entries := by
      simp [entries,hsub]
    rcases hc with hc | ⟨tag,htag⟩
    · refine h.ledger.other (x := (s.currentBlock,some s.block)) (y := (s.currentBlock,some c))
        ?_ ?_ rfl
      · simp [hsub]
      · simp only [List.mem_append] at hc ⊢
        tauto
    · exact h.ledger.no_slot hcur tag c htag
  · exact hnone (by simp [entries,hfull])
  · refine hnone ?_
    have hmem : (b,none) ∈ s.tasks.flatMap CompressTask.entries :=
      List.mem_flatMap.mpr ⟨_,hrun,List.mem_cons_self⟩
    simp [entries,hmem]

variable {calls : List PushOp} {memory : Nat → Bytes}

theorem Ordered.run (run : WriterBufferRuns cp xxh directMem failure calls memory s) : Ordered s :=
  invariant (Ordered.start calls memory) (fun _ _ h hs => h.step hs) run

/-- With buffers that are used again the writer does what it does on values. -/
theorem run_refines (run : WriterBufferRuns cp xxh directMem failure calls memory s) :
    WriterRuns cp xxh directMem failure calls s.pipeline :=
  simulates pipeline (Ordered.start calls memory) (fun _ _ h hs => h.step hs)
    (fun _ _ h hs => step_refines h hs) run

end

end WriterBuffers

end QData
