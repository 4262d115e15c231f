import QData.InterruptedSave
import QData.MemoryWriter
import QData.Lib.Streams
/-! Saving to a device that may refuse what it is given, at any moment and on any number of
threads: a save that returns has left nothing out but, at most, some of the checksum. -/
set_option autoImplicit false

namespace QData
open Words Systems Sequencing Buffering

/-- `OfStreamWriter`: the file, and the buffer of its `std::filebuf`. -/
abbrev OfStream := Buffered UInt8 OutStream

theorem OutStream.sequential : Sequential OutStream.write where
  nil o := by
    rw [OutStream.write,writeAt_nil]
    rfl
  append xs ys o := by
    have htake : (writeAt o.bytes o.position xs).take (o.position+xs.length) =
        o.bytes.take o.position ++ xs := by
      rw [writeAt]
      by_cases hp : o.position ≤ o.bytes.length
      · rw [List.take_left' (by rw [List.length_append,List.length_take]; omega)]
      · rw [List.drop_of_length_le (by omega),List.append_nil,
          List.take_of_length_le (by rw [List.length_append,List.length_take]; omega)]
    have hdrop : (writeAt o.bytes o.position xs).drop (o.position+xs.length+ys.length) =
        o.bytes.drop (o.position+xs.length+ys.length) := by
      rw [writeAt]
      by_cases hp : o.position ≤ o.bytes.length
      · rw [← List.drop_drop,
          List.drop_left' (by rw [List.length_append,List.length_take]; omega),List.drop_drop]
      · rw [List.drop_of_length_le (by simp; omega),List.drop_of_length_le (by omega)]
    have hlong : o.bytes.drop (o.position+(xs ++ ys).length) =
        o.bytes.drop (o.position+xs.length+ys.length) := by
      rw [List.length_append,Nat.add_assoc]
    have hbytes : writeAt o.bytes o.position (xs ++ ys) =
        writeAt (writeAt o.bytes o.position xs) (o.position+xs.length) ys := by
      rw [writeAt,writeAt.eq_def _ _ ys,htake,hdrop,hlong]
      simp only [List.append_assoc]
    rw [OutStream.write,OutStream.write,OutStream.write,hbytes,List.length_append,Nat.add_assoc]

/-- A multithreaded writer after an exception left its writer node: the group is cancelled,
so no task of the graph does anything any more. Only the caller's thread goes on, making
submissions of which nothing becomes. `messages` are the tasks and blocks left to drop. -/
structure CancelledWriter where
  calls : List PushOp
  producer : Producer
  messages : Nat
  phase : WriterPhase

/-- The multithreaded writer on a stream that may throw. -/
inductive FailingWriter where
  | running : WriterPipeline → OfStream → FailingWriter
  | cancelled : CancelledWriter → FailingWriter

def FailingWriter.phase : FailingWriter → WriterPhase
  | .running p _ => p.phase
  | .cancelled c => c.phase

def Compressed.writes (z : Compressed) : List Bytes := [toBytes 4 z.zsize,z.bytes]

theorem Compressed.writes_flatten (z : Compressed) : z.writes.flatten = z.emit := by
  simp [Compressed.writes,Compressed.emit]

section
variable (cp : Compressor) (xxh : Bytes → UInt64) (directMem : Bool) (failure : Option String)
  (what : String)

/-- The caller's thread once the group is cancelled. `wait_for_all` throws what the node threw,
the exception of the stream with the text `what`. -/
inductive CancelledStep : CancelledWriter → CancelledWriter → Prop
  | call {c : CancelledWriter} {op : PushOp} {calls : List PushOp} (pushing : c.phase = .pushing)
      (taken : c.producer.outgoing = []) (next : c.calls = op :: calls) :
      CancelledStep c { c with producer := c.producer.push directMem op, calls := calls }
  | finish {c : CancelledWriter} (pushing : c.phase = .pushing)
      (taken : c.producer.outgoing = []) (ended : c.calls = []) (ok : failure = none) :
      CancelledStep c { c with producer := c.producer.flush, phase := .waiting }
  | throw {c : CancelledWriter} {msg : String} (pushing : c.phase = .pushing)
      (taken : c.producer.outgoing = []) (ended : c.calls = []) (failed : failure = some msg) :
      CancelledStep c { c with phase := .thrown msg }
  | submit {c : CancelledWriter} {sub : Submission} {rest : List Submission}
      (head : c.producer.outgoing = sub :: rest) :
      CancelledStep c { c with
        producer := { c.producer with outgoing := rest }
        messages := c.messages+1 }
  | drop {c : CancelledWriter} {n : Nat} (left : c.messages = n+1) :
      CancelledStep c { c with messages := n }
  | rethrow {c : CancelledWriter} (waiting : c.phase = .waiting)
      (taken : c.producer.outgoing = []) (idle : c.messages = 0) :
      CancelledStep c { c with phase := .thrown what }

/-- A step of the caller or of a node. The writer node makes the writes of a block, and the
first that the stream refuses cancels the group. -/
inductive FailingStep : FailingWriter → FailingWriter → Prop
  | work {p q : WriterPipeline} {b : OfStream} (step : WriterStep cp xxh directMem failure p q)
      (silent : q.out = p.out) : FailingStep (.running p b) (.running q b)
  | write {p : WriterPipeline} {b b' : OfStream} {z : Compressed}
      (next : p.sequencer.next = some z)
      (taken : WritesAll OutStream.write b z.writes (some b')) :
      FailingStep (.running p b) (.running { p with
        sequencer := p.sequencer.release
        out := p.out ++ z.emit
        hashed := p.hashed ++ z.emit } b')
  | refuse {p : WriterPipeline} {b : OfStream} {z : Compressed}
      (next : p.sequencer.next = some z)
      (failed : WritesAll OutStream.write b z.writes none) :
      FailingStep (.running p b)
        (.cancelled ⟨p.calls,p.producer,p.tasks.length+p.compressed.length,p.phase⟩)
  | aftermath {c d : CancelledWriter} (step : CancelledStep directMem failure what c d) :
      FailingStep (.cancelled c) (.cancelled d)

abbrev FailingRuns (calls : List PushOp) (b : OfStream) : FailingWriter → Prop :=
  Runs (FailingStep cp xxh directMem failure what) (.running { calls := calls } b)

end

section
variable {cp : Compressor} {xxh : Bytes → UInt64} {directMem : Bool} {failure : Option String}
  {what : String} {calls : List PushOp} {b₀ : OfStream}

/-- As long as no write was refused, the writer runs as on a stream that takes everything,
and that is what the stream is going to have. -/
def FailingInv (cp : Compressor) (xxh : Bytes → UInt64) (directMem : Bool)
    (failure : Option String) (what : String) (calls : List PushOp) (b₀ : OfStream) :
    FailingWriter → Prop
  | .running p b => WriterRuns cp xxh directMem failure calls p ∧
      b.intended OutStream.write = (b₀.intended OutStream.write).write p.out
  | .cancelled c => c.phase = .pushing ∨ c.phase = .waiting ∨ c.phase = .thrown what ∨
      ∃ msg, failure = some msg ∧ c.phase = .thrown msg

theorem WriterRuns.phases {p : WriterPipeline} (run : WriterRuns cp xxh directMem failure calls p)
    (busy : ¬ p.Idle) : p.phase = .pushing ∨ p.phase = .waiting ∨
      ∃ msg, failure = some msg ∧ p.phase = .thrown msg := by
  cases hphase : p.phase with
  | pushing => exact .inl rfl
  | waiting => exact .inr (.inl rfl)
  | finished hash =>
    obtain ⟨blocks,_,ha⟩ := WriterInv.run run
    simp only [Accounts,hphase] at ha
    exact absurd ha.2.1 busy
  | thrown msg =>
    refine .inr (.inr ⟨msg,?_,rfl⟩)
    cases hf : failure with
    | none =>
      rw [hf] at run
      exact absurd hphase (run.not_thrown msg)
    | some text =>
      rw [hf] at run
      rcases run.not_finished with h | h <;> rw [hphase] at h <;> cases h
      rfl

theorem busy_of_next {p : WriterPipeline} {z : Compressed} (next : p.sequencer.next = some z) :
    ¬ p.Idle := by
  rintro ⟨-,-,-,hidle⟩
  rw [next] at hidle
  cases hidle

theorem CancelledStep.keeps {c d : CancelledWriter}
    (h : FailingInv cp xxh directMem failure what calls b₀ (.cancelled c))
    (step : CancelledStep directMem failure what c d) :
    FailingInv cp xxh directMem failure what calls b₀ (.cancelled d) := by
  cases step with
  | call => exact h
  | submit => exact h
  | drop => exact h
  | finish => exact .inr (.inl rfl)
  | throw pushing taken ended failed => exact .inr (.inr (.inr ⟨_,failed,rfl⟩))
  | rethrow => exact .inr (.inr (.inl rfl))

theorem FailingInv.step {s t : FailingWriter}
    (h : FailingInv cp xxh directMem failure what calls b₀ s)
    (hstep : FailingStep cp xxh directMem failure what s t) :
    FailingInv cp xxh directMem failure what calls b₀ t := by
  cases hstep with
  | work step silent =>
    refine ⟨h.1.tail step,?_⟩
    rw [silent]
    exact h.2
  | write next taken =>
    refine ⟨h.1.tail (.write next),?_⟩
    rw [taken.intended OutStream.sequential,h.2,Compressed.writes_flatten,
      OutStream.sequential.append]
  | refuse next failed =>
    rcases h.1.phases (busy_of_next next) with hp | hp | hp
    · exact .inl hp
    · exact .inr (.inl hp)
    · exact .inr (.inr (.inr hp))
  | aftermath step => exact step.keeps h

theorem FailingInv.run {s : FailingWriter}
    (run : FailingRuns cp xxh directMem failure what calls b₀ s) :
    FailingInv cp xxh directMem failure what calls b₀ s := by
  refine invariant ?_ (fun _ _ h hs => h.step hs) run
  exact ⟨.refl,(OutStream.sequential.nil _).symm⟩

def FailingWriter.weight : FailingWriter → Nat
  | .running p _ => p.weight
  | .cancelled c => callsWeight c.calls + c.phase.weight + 2*c.producer.outgoing.length + c.messages

theorem CancelledStep.weight_lt {c d : CancelledWriter}
    (step : CancelledStep directMem failure what c d) :
    (FailingWriter.cancelled d).weight < (FailingWriter.cancelled c).weight := by
  cases step with
  | @call op rest pushing taken next =>
    have hsent := c.producer.push_sent directMem op
    have hcount := cutCall_count c.producer.block op
    simp only [FailingWriter.weight,next,callsWeight,hsent.outgoing_length]
    omega
  | finish pushing taken ended ok =>
    have hsent := c.producer.flush_sent
    have hcount : (lastBlock c.producer.block).length ≤ 1 := by
      rw [lastBlock]
      split <;> simp
    simp only [FailingWriter.weight,hsent.outgoing_length,pushing,WriterPhase.weight]
    omega
  | throw pushing taken ended failed =>
    simp only [FailingWriter.weight,pushing,WriterPhase.weight]
    omega
  | submit head =>
    simp only [FailingWriter.weight,head,List.length_cons]
    omega
  | drop left =>
    simp only [FailingWriter.weight,left]
    omega
  | rethrow waiting taken idle =>
    simp only [FailingWriter.weight,waiting,WriterPhase.weight]
    omega

theorem FailingStep.weight_lt {s t : FailingWriter}
    (h : FailingInv cp xxh directMem failure what calls b₀ s)
    (hstep : FailingStep cp xxh directMem failure what s t) : t.weight < s.weight := by
  cases hstep with
  | work step silent => exact step.weight_lt (WriterInv.run h.1)
  | write next taken =>
    have step : WriterStep cp xxh directMem failure _ _ := .write next
    exact step.weight_lt (WriterInv.run h.1)
  | @refuse p b z next failed =>
    obtain ⟨blocks,hc,_⟩ := WriterInv.run h.1
    obtain ⟨block,hb,_⟩ := hc.sequenced _ _ next
    have hlt := (List.getElem?_eq_some_iff.mp hb).1
    rw [← hc.blocknumber] at hlt
    simp only [FailingWriter.weight,WriterPipeline.weight]
    omega
  | aftermath step => exact step.weight_lt

theorem WriterStep.taken {p q : WriterPipeline} (step : WriterStep cp xxh directMem failure p q)
    (b : OfStream) :
    ∃ b', FailingStep cp xxh directMem failure what (.running p b) (.running q b') := by
  cases step with
  | call pushing taken next => exact ⟨b,.work (.call pushing taken next) rfl⟩
  | finish pushing taken ended ok => exact ⟨b,.work (.finish pushing taken ended ok) rfl⟩
  | throw pushing taken ended failed => exact ⟨b,.work (.throw pushing taken ended failed) rfl⟩
  | submit head => exact ⟨b,.work (.submit head) rfl⟩
  | compress before after task => exact ⟨b,.work (.compress before after task) rfl⟩
  | sequence before after item => exact ⟨b,.work (.sequence before after item) rfl⟩
  | wait waiting idle => exact ⟨b,.work (.wait waiting idle) rfl⟩
  | @write z next =>
    obtain ⟨b',hb⟩ := writesAll_exists OutStream.write b z.writes
    exact ⟨b',.write next hb⟩

theorem WriterRuns.taken {p : WriterPipeline} (run : WriterRuns cp xxh directMem failure calls p)
    (b : OfStream) :
    ∃ b', FailingRuns cp xxh directMem failure what calls b (.running p b') := by
  induction run with
  | refl => exact ⟨b,.refl⟩
  | tail _ step ih =>
    obtain ⟨b',hrun⟩ := ih
    obtain ⟨b'',hstep⟩ := step.taken b'
    exact ⟨b'',hrun.tail hstep⟩

theorem CancelledWriter.moves (c : CancelledWriter) (directMem : Bool) (failure : Option String)
    (what : String) : c.phase.Exited ∨ ∃ d, CancelledStep directMem failure what c d := by
  cases hout : c.producer.outgoing with
  | cons sub rest => exact .inr ⟨_,.submit hout⟩
  | nil =>
  cases hleft : c.messages with
  | succ n => exact .inr ⟨_,.drop hleft⟩
  | zero =>
  cases hphase : c.phase with
  | finished hash => exact .inl trivial
  | thrown msg => exact .inl trivial
  | waiting => exact .inr ⟨_,.rethrow hphase hout hleft⟩
  | pushing =>
    cases hcalls : c.calls with
    | cons op rest => exact .inr ⟨_,.call hphase hout hcalls⟩
    | nil =>
      cases hfail : failure with
      | none => exact .inr ⟨_,.finish hphase hout hcalls rfl⟩
      | some msg => exact .inr ⟨_,.throw hphase hout hcalls rfl⟩

theorem FailingWriter.moves (s : FailingWriter) :
    s.phase.Exited ∨ ∃ t, FailingStep cp xxh directMem failure what s t := by
  cases s with
  | cancelled c =>
    rcases c.moves directMem failure what with h | ⟨d,hd⟩
    · exact .inl h
    · exact .inr ⟨_,.aftermath hd⟩
  | running p b =>
    have hmoves : p.phase.Exited ∨ ∃ q, WriterStep cp xxh directMem failure p q := p.moves
    rcases hmoves with h | ⟨q,hq⟩
    · exact .inl h
    · obtain ⟨b',hstep⟩ := hq.taken b
      exact .inr ⟨_,hstep⟩

theorem FailingRuns.exits {s : FailingWriter}
    (run : FailingRuns cp xxh directMem failure what calls b₀ s) :
    ∃ t, Runs (FailingStep cp xxh directMem failure what) s t ∧ t.phase.Exited :=
  finishes (I := FailingInv cp xxh directMem failure what calls b₀) FailingWriter.weight
    (fun _ _ h hs => h.step hs)
    (fun s h => s.moves.imp_right fun ⟨t,ht⟩ => ⟨t,ht,ht.weight_lt h⟩) (FailingInv.run run)

/-- After a write was refused there is no other way out than an exception. -/
theorem FailingRuns.cancelled_throws {c : CancelledWriter}
    (run : FailingRuns cp xxh directMem failure what calls b₀ (.cancelled c))
    (exited : c.phase.Exited) : ∃ msg, c.phase = .thrown msg ∧ (msg = what ∨ failure = some msg) := by
  rcases FailingInv.run run with h | h | h | ⟨msg,hf,h⟩
  · rw [h] at exited
    cases exited
  · rw [h] at exited
    cases exited
  · exact ⟨what,h,.inl rfl⟩
  · exact ⟨msg,h,.inr hf⟩

end

theorem writeSingleThread_writes (cp : Compressor) (xxh : Bytes → UInt64) (maxDepth : Nat)
    (v : Value) : (writeSingleThread cp xxh maxDepth v).out =
      (blockWrites cp 0 (writtenBlocks maxDepth v)).flatten := by
  rw [blockWrites_flatten,writtenBlocks]
  simp only [writeSingleThread]
  cases (streamWrite maxDepth v).error with
  | some msg => simp only [BlockWriter.pushAll_eq,BlockWriter.sent,List.nil_append]
  | none =>
    simp only [BlockWriter.finish_eq]
    rfl

section
variable (z : Zstd) (xxh : Bytes → UInt64) (compressLevel : Int) (shuffle : Bool)
  (maxDepth : Nat) (v : Value) (nthreads : Int) (what : String)

inductive WritesObject (b : OfStream) : Except String (UInt64 × OfStream) → Prop
  | rejected {msg : String} (invalid : validateWriteArguments z compressLevel = some msg) :
      WritesObject b (.error msg)
  | singleRefused (one : nthreads ≤ 1) (valid : validateWriteArguments z compressLevel = none)
      (failed : WritesAll OutStream.write b
        (blockWrites (z.compressor shuffle compressLevel) 0 (writtenBlocks maxDepth v)) none) :
      WritesObject b (.error what)
  | singleThrew {b' : OfStream} {msg : String} (one : nthreads ≤ 1)
      (valid : validateWriteArguments z compressLevel = none)
      (taken : WritesAll OutStream.write b
        (blockWrites (z.compressor shuffle compressLevel) 0 (writtenBlocks maxDepth v)) (some b'))
      (result : (writeSingleThread (z.compressor shuffle compressLevel) xxh maxDepth v).result =
        .error msg) : WritesObject b (.error msg)
  | single {b' : OfStream} {hash : UInt64} (one : nthreads ≤ 1)
      (valid : validateWriteArguments z compressLevel = none)
      (taken : WritesAll OutStream.write b
        (blockWrites (z.compressor shuffle compressLevel) 0 (writtenBlocks maxDepth v)) (some b'))
      (result : (writeSingleThread (z.compressor shuffle compressLevel) xxh maxDepth v).result =
        .ok hash) : WritesObject b (.ok (hash,b'))
  | multiThrew {s : FailingWriter} {msg : String} (more : 1 < nthreads)
      (valid : validateWriteArguments z compressLevel = none)
      (run : FailingRuns (z.compressor shuffle compressLevel) xxh true
        (streamWrite maxDepth v).error what (streamWrite maxDepth v).pushed b s)
      (threw : s.phase = .thrown msg) : WritesObject b (.error msg)
  | multi {p : WriterPipeline} {b' : OfStream} {hash : UInt64} (more : 1 < nthreads)
      (valid : validateWriteArguments z compressLevel = none)
      (run : FailingRuns (z.compressor shuffle compressLevel) xxh true
        (streamWrite maxDepth v).error what (streamWrite maxDepth v).pushed b (.running p b'))
      (ended : p.phase = .finished hash) : WritesObject b (.ok (hash,b'))

/-- `save_erased` on an open path: the exception, or the file. A seek empties the buffer and
throws where that fails; the destructor of the stream, which empties it a last time, does
not tell. -/
inductive SavesTo : Except String Bytes → Prop
  | headerRefused (failed : Writes OutStream.write ⟨{},[]⟩ (qdataHeader shuffle) none) :
      SavesTo (.error what)
  | objectThrew {b : OfStream} {msg : String}
      (header : Writes OutStream.write ⟨{},[]⟩ (qdataHeader shuffle) (some b))
      (object : WritesObject z xxh compressLevel shuffle maxDepth v nthreads what b (.error msg)) :
      SavesTo (.error msg)
  | seekRefused {b b' : OfStream} {hash : UInt64}
      (header : Writes OutStream.write ⟨{},[]⟩ (qdataHeader shuffle) (some b))
      (object : WritesObject z xxh compressLevel shuffle maxDepth v nthreads what b
        (.ok (hash,b'))) (stored : hash ≠ 0) (failed : Flushes OutStream.write b' none) :
      SavesTo (.error what)
  | hashRefused {b b' c : OfStream} {hash : UInt64}
      (header : Writes OutStream.write ⟨{},[]⟩ (qdataHeader shuffle) (some b))
      (object : WritesObject z xxh compressLevel shuffle maxDepth v nthreads what b
        (.ok (hash,b'))) (stored : hash ≠ 0) (flushed : Flushes OutStream.write b' (some c))
      (failed : Writes OutStream.write ⟨c.device.seekp headerHashPosition,c.pending⟩
        (toBytes 8 hash.toNat) none) : SavesTo (.error what)
  | returned {b b' c d : OfStream} {hash : UInt64}
      (header : Writes OutStream.write ⟨{},[]⟩ (qdataHeader shuffle) (some b))
      (object : WritesObject z xxh compressLevel shuffle maxDepth v nthreads what b
        (.ok (hash,b'))) (stored : hash ≠ 0) (flushed : Flushes OutStream.write b' (some c))
      (taken : Writes OutStream.write ⟨c.device.seekp headerHashPosition,c.pending⟩
        (toBytes 8 hash.toNat) (some d)) (n : Nat) :
      SavesTo (.ok (d.pass OutStream.write n).device.bytes)
  | returnedPlain {b b' : OfStream} {hash : UInt64}
      (header : Writes OutStream.write ⟨{},[]⟩ (qdataHeader shuffle) (some b))
      (object : WritesObject z xxh compressLevel shuffle maxDepth v nthreads what b
        (.ok (hash,b'))) (plain : hash = 0) (n : Nat) :
      SavesTo (.ok (b'.pass OutStream.write n).device.bytes)

end

section
variable {z : Zstd} {xxh : Bytes → UInt64} {compressLevel : Int} {shuffle : Bool}
  {maxDepth : Nat} {v : Value} {nthreads : Int} {what : String}

theorem WritesObject.returned {b b' : OfStream} {hash : UInt64}
    (h : WritesObject z xxh compressLevel shuffle maxDepth v nthreads what b (.ok (hash,b'))) :
    ∃ out, Returns z xxh compressLevel shuffle maxDepth v nthreads out hash ∧
      b'.intended OutStream.write = (b.intended OutStream.write).write out := by
  cases h with
  | single one valid taken result =>
    refine ⟨_,.single one ?_,taken.intended OutStream.sequential⟩
    rw [writeQdataObject,valid,← writeSingleThread_writes]
    simp only
    rw [← result]
  | multi more valid run ended =>
    obtain ⟨hrun,hout⟩ := FailingInv.run run
    exact ⟨_,.multi more valid hrun ended,hout⟩

variable (what) in
theorem Returns.writesObject {out : Bytes} {hash : UInt64}
    (h : Returns z xxh compressLevel shuffle maxDepth v nthreads out hash) (b : OfStream) :
    ∃ b', WritesObject z xxh compressLevel shuffle maxDepth v nthreads what b (.ok (hash,b')) := by
  cases h with
  | single one written =>
    obtain ⟨b',hb⟩ := writesAll_exists OutStream.write b
      (QData.blockWrites (z.compressor shuffle compressLevel) 0 (writtenBlocks maxDepth v))
    rw [writeQdataObject] at written
    cases hvalid : validateWriteArguments z compressLevel with
    | some msg =>
      rw [hvalid] at written
      cases written
    | none =>
      rw [hvalid] at written
      exact ⟨b',.single one hvalid hb (congrArg Written.result written)⟩
  | multi more valid run ended =>
    obtain ⟨b',hrun⟩ := WriterRuns.taken run b
    exact ⟨b',.multi more valid hrun ended⟩

/-- The file of a save that returned, whatever its device did: all blocks, and of the
checksum the first bytes. -/
theorem SavesTo.file {file : Bytes}
    (h : SavesTo z xxh compressLevel shuffle maxDepth v nthreads what (.ok file)) :
    ∃ out hash n, Returns z xxh compressLevel shuffle maxDepth v nthreads out hash ∧
      file = ((((writeQdataHeader shuffle {}).write out).seekp headerHashPosition).write
        ((toBytes 8 hash.toNat).take n)).bytes := by
  have hstart : (Buffered.mk ({} : OutStream) ([] : Bytes)).intended OutStream.write = {} :=
    OutStream.sequential.nil _
  cases h with
  | returnedPlain header object plain n =>
    obtain ⟨out,hreturns,-⟩ := object.returned
    rw [hreturns.stream.2.2] at plain
    exact absurd plain (digest_ne_zero xxh out)
  | @returned b b' c d hash header object stored flushed taken n =>
    obtain ⟨out,hreturns,hout⟩ := object.returned
    have hheader : b.intended OutStream.write = writeQdataHeader shuffle {} := by
      rw [header.intended OutStream.sequential,hstart]
      rfl
    cases flushed with
    | took =>
      cases taken with
      | took k =>
        refine ⟨out,hash,k+n,hreturns,?_⟩
        rw [← hheader,← hout,List.take_add,OutStream.sequential.append]
        rfl

theorem Returns.savesTo {out : Bytes} {hash : UInt64}
    (h : Returns z xxh compressLevel shuffle maxDepth v nthreads out hash) :
    SavesTo z xxh compressLevel shuffle maxDepth v nthreads what
      (.ok (savedBytes shuffle out hash)) := by
  have hheader : Writes OutStream.write ⟨{},[]⟩ (qdataHeader shuffle) _ := .took 0
  obtain ⟨b',hobject⟩ := h.writesObject what _
  obtain ⟨out',hreturns,hout⟩ := hobject.returned
  have hsame : out' = out := hreturns.stream.2.1.trans h.stream.2.1.symm
  have hne : hash ≠ 0 := by
    rw [h.stream.2.2]
    exact digest_ne_zero xxh out
  have hsaved := SavesTo.returned hheader hobject hne .took (.took 8) 0
  have hdevice : b'.intended OutStream.write = (writeQdataHeader shuffle {}).write out := by
    rw [hout,hsame,hheader.intended OutStream.sequential]
    congr 1
  have hall : (toBytes 8 hash.toNat).take 8 = toBytes 8 hash.toNat :=
    List.take_of_length_le (by simp)
  have hfile : savedBytes shuffle out hash =
      (((b'.intended OutStream.write).seekp headerHashPosition).write
        (toBytes 8 hash.toNat)).bytes := by
    rw [savedBytes,writeQxHash,if_pos hne,hdevice]
  simp only [Buffered.pass,Buffered.accept,List.nil_append,hall,List.take_zero,
    OutStream.sequential.nil] at hsaved
  rw [hfile]
  exact hsaved

end

/-- Saving on a device that may refuse anything at any moment, on one thread or several. What
returns has left all blocks in the file and of the checksum some first bytes or none, so that
it reads like the finished file without validation and, with it, as nothing else. The finished
file is one of the outcomes. A multithreaded writer always comes to its end, in any schedule
and within a number of steps that its calls bound, and after a refused write only in an
exception. -/
theorem nothing_lost_silently (z : Zstd) (xxh : Bytes → UInt64) (compressLevel : Int)
    (shuffle : Bool) (maxDepth : Nat) (v : Value) (nthreads : Int) (what : String) :
    (∀ file, SavesTo z xxh compressLevel shuffle maxDepth v nthreads what (.ok file) →
      ∃ out hash n, Returns z xxh compressLevel shuffle maxDepth v nthreads out hash ∧
        file = ((((writeQdataHeader shuffle {}).write out).seekp headerHashPosition).write
          ((toBytes 8 hash.toNat).take n)).bytes ∧
        ∀ resets d readers, (∀ r, ReadsTo z xxh resets false d readers file r ↔
            ReadsTo z xxh resets false d readers (savedBytes shuffle out hash) r) ∧
          ∀ o, ReadsTo z xxh resets true d readers file (some o) →
            file = savedBytes shuffle out hash) ∧
      (∀ out hash, Returns z xxh compressLevel shuffle maxDepth v nthreads out hash →
        SavesTo z xxh compressLevel shuffle maxDepth v nthreads what
          (.ok (savedBytes shuffle out hash))) ∧
      ∀ (cp : Compressor) (directMem : Bool) (failure : Option String) (calls : List PushOp)
        (b : OfStream),
        (∀ s, FailingRuns cp xxh directMem failure what calls b s →
          ∃ t, Runs (FailingStep cp xxh directMem failure what) s t ∧ t.phase.Exited) ∧
        (∀ run : Nat → FailingWriter, run 0 = .running { calls := calls } b →
          ∃ n ≤ 4*(pushedBytes calls).length+5*calls.length+6,
            ¬ FailingStep cp xxh directMem failure what (run n) (run (n+1))) ∧
        ∀ c, FailingRuns cp xxh directMem failure what calls b (.cancelled c) →
          c.phase.Exited → ∃ msg, c.phase = .thrown msg ∧ (msg = what ∨ failure = some msg) := by
  refine ⟨fun file h => ?_,fun out hash h => h.savesTo,fun cp directMem failure calls b =>
    ⟨fun s run => FailingRuns.exits run,fun run hstart => ?_,
      fun c run exited => FailingRuns.cancelled_throws run exited⟩⟩
  · obtain ⟨out,hash,n,hreturns,hfile⟩ := h.file
    refine ⟨out,hash,n,hreturns,hfile,fun resets d readers => ?_⟩
    obtain ⟨stored,hbytes⟩ := hashing_bytes shuffle out hash n
    rw [hfile,hbytes,savedBytes,writeQxHash_bytes]
    refine ⟨fun r => ⟨fun hr => readsTo_unvalidated hr hash,
      fun hr => readsTo_unvalidated hr stored⟩,fun o hr => ?_⟩
    rw [readsTo_validated hr,hreturns.stream.2.2]
  · have keeps : ∀ s t, FailingInv cp xxh directMem failure what calls b s →
        FailingStep cp xxh directMem failure what s t →
        FailingInv cp xxh directMem failure what calls b t := fun _ _ h hs => h.step hs
    have hinv : FailingInv cp xxh directMem failure what calls b (run 0) := by
      rw [hstart]
      exact FailingInv.run .refl
    obtain ⟨n,hle,hn⟩ := no_longer FailingWriter.weight keeps (fun _ _ h hs => hs.weight_lt h) hinv
    refine ⟨n,?_,hn⟩
    rw [hstart,FailingWriter.weight,WriterPipeline.weight,callsWeight_eq] at hle
    simpa [WriterPhase.weight] using hle

end QData
