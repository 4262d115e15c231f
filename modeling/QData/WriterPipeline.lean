import QData.BlockStream
import QData.Lib.Systems
/-! The multithreaded block writer: a producer that numbers blocks, compression tasks that
finish in any order, and one writer behind a sequencer. -/
set_option autoImplicit false

namespace QData
open Words Systems Sequencing

/-- A block handed to a compression node: `OrderedBlock`, or `OrderedPtr` when it is
borrowed. A borrowed buffer is not changed before `finish()`. -/
structure Submission where
  number : Nat
  borrowed : Bool
  bytes : Bytes
  deriving DecidableEq, Repr

/-- The fields of `BlockCompressWriterMT` that its caller's thread works on, and the
submissions made so far that no task has taken up. -/
structure Producer where
  block : Bytes := []
  blocknumber : Nat := 0
  outgoing : List Submission := []
  deriving DecidableEq, Repr

namespace Producer

def submitBlock (block : Bytes) (p : Producer) : Producer :=
  { p with outgoing := p.outgoing ++ [⟨p.blocknumber,false,block⟩] }

def submitDirectBlock (block : Bytes) (p : Producer) : Producer :=
  { p with outgoing := p.outgoing ++ [⟨p.blocknumber,true,block⟩] }

def nextNumber (p : Producer) : Producer := { p with blocknumber := p.blocknumber+1 }

def flush (p : Producer) : Producer :=
  if p.block.length > 0 then { (p.submitBlock p.block).nextNumber with block := [] } else p

def flushFull (p : Producer) : Producer :=
  if p.block.length ≥ maxBlocksize then p.flush else p

def topUp (inbuffer : Bytes) (p : Producer) : Producer × Bytes :=
  if p.block.length > 0 then
    let addLength := min inbuffer.length (maxBlocksize - p.block.length)
    ({ p with block := p.block ++ inbuffer.take addLength },inbuffer.drop addLength)
  else (p,inbuffer)

/-- A full block is borrowed from the caller or copied, by `direct_mem`. -/
def submitFull (directMem : Bool) (block : Bytes) (p : Producer) : Producer :=
  if directMem then p.submitDirectBlock block else p.submitBlock block

def submitFullBlocks (directMem : Bool) (p : Producer) (rest : Bytes) : Producer × Bytes :=
  if rest.length ≥ maxBlocksize then
    submitFullBlocks directMem (p.submitFull directMem (rest.take maxBlocksize)).nextNumber
      (rest.drop maxBlocksize)
  else (p,rest)
termination_by rest.length
decreasing_by simp only [List.length_drop,maxBlocksize] at *; omega

def pushData (directMem : Bool) (p : Producer) (inbuffer : Bytes) : Producer :=
  let (p,rest) := p.flushFull.topUp inbuffer
  let (p,rest) := p.flushFull.submitFullBlocks directMem rest
  if rest.length > 0 then { p with block := rest } else p

def pushPodContiguous (p : Producer) (pod : Bytes) : Producer :=
  { p with block := p.block ++ pod }

def pushPod (p : Producer) (pod : Bytes) : Producer :=
  (if p.block.length > minBlocksize then p.flush else p).pushPodContiguous pod

def push (directMem : Bool) (p : Producer) : PushOp → Producer
  | .pod bs => p.pushPod bs
  | .podContiguous bs => p.pushPodContiguous bs
  | .data bs => p.pushData directMem bs

end Producer

def numbered : Nat → List Bytes → List (Nat × Bytes)
  | _, [] => []
  | k, b :: bs => (k,b) :: numbered (k+1) bs

theorem numbered_append (k : Nat) (xs ys : List Bytes) :
    numbered k (xs ++ ys) = numbered k xs ++ numbered (k+xs.length) ys := by
  induction xs generalizing k with
  | nil => rfl
  | cons x xs ih =>
    rw [List.cons_append,numbered,numbered,ih,List.length_cons,List.cons_append,
      show k+(xs.length+1) = k+1+xs.length by omega]

def Submission.item (s : Submission) : Nat × Bytes := (s.number,s.bytes)

structure Producer.Sent (p : Producer) (blocks : List Bytes) (block : Bytes)
    (p' : Producer) : Prop where
  outgoing : p'.outgoing.map Submission.item =
    p.outgoing.map Submission.item ++ numbered p.blocknumber blocks
  blocknumber : p'.blocknumber = p.blocknumber+blocks.length
  block : p'.block = block

namespace Producer

theorem Sent.nothing (p : Producer) (block : Bytes) : p.Sent [] block { p with block := block } :=
  ⟨by simp [numbered],rfl,rfl⟩

theorem Sent.trans {p p' p'' : Producer} {xs ys : List Bytes} {b c : Bytes}
    (h : p.Sent xs b p') (k : p'.Sent ys c p'') : p.Sent (xs ++ ys) c p'' where
  outgoing := by
    rw [k.outgoing,h.outgoing,h.blocknumber,numbered_append,List.append_assoc]
  blocknumber := by rw [k.blocknumber,h.blocknumber,List.length_append,Nat.add_assoc]
  block := k.block

theorem flush_sent (p : Producer) : p.Sent (lastBlock p.block) [] p.flush := by
  rw [flush,lastBlock]
  by_cases h : p.block.length > 0
  · rw [if_pos h,if_pos h]
    exact ⟨by simp [submitBlock,nextNumber,Submission.item,numbered],rfl,rfl⟩
  · rw [if_neg h,if_neg h]
    have hn : p.block = [] := List.eq_nil_of_length_eq_zero (by omega)
    exact ⟨by simp [numbered],rfl,hn⟩

theorem flushFull_short {p : Producer} (h : p.block.length < maxBlocksize) :
    p.flushFull = p := by
  rw [flushFull,if_neg (by omega)]

theorem flushFull_full {p : Producer} (h : maxBlocksize ≤ p.block.length) :
    p.Sent [p.block] [] p.flushFull := by
  have hp : p.block.length > 0 := Nat.lt_of_lt_of_le (by decide) h
  have hs := p.flush_sent
  rw [lastBlock,if_pos hp] at hs
  rw [flushFull,if_pos h]
  exact hs

theorem submitFull_sent (directMem : Bool) (block : Bytes) (p : Producer) :
    p.Sent [block] p.block (p.submitFull directMem block).nextNumber := by
  rw [submitFull]
  cases directMem
  · exact ⟨by simp [submitBlock,nextNumber,Submission.item,numbered],rfl,rfl⟩
  · exact ⟨by simp [submitDirectBlock,nextNumber,Submission.item,numbered],rfl,rfl⟩

theorem submitFullBlocks_sent (directMem : Bool) (p : Producer) (rest : Bytes) :
    p.Sent (Chunks.cut maxBlocksize rest).1 p.block (p.submitFullBlocks directMem rest).1 ∧
      (p.submitFullBlocks directMem rest).2 = (Chunks.cut maxBlocksize rest).2 := by
  induction p, rest using submitFullBlocks.induct directMem with
  | case1 p rest h ih =>
    rw [submitFullBlocks,if_pos h,Chunks.cut_long (by decide) h]
    have hone := submitFull_sent directMem (rest.take maxBlocksize) p
    have htail := ih.1
    rw [hone.block] at htail
    exact ⟨hone.trans htail,ih.2⟩
  | case2 p rest h =>
    rw [submitFullBlocks,if_neg h,Chunks.cut_short (by omega)]
    exact ⟨Sent.nothing p p.block,rfl⟩

theorem submitFullBlocks_tail (directMem : Bool) {p : Producer} (h : p.block = [])
    (rest : Bytes) :
    p.Sent (Chunks.cut maxBlocksize rest).1 (Chunks.cut maxBlocksize rest).2
      (let r := p.submitFullBlocks directMem rest
       if r.2.length > 0 then { r.1 with block := r.2 } else r.1) := by
  obtain ⟨hs,hr⟩ := submitFullBlocks_sent directMem p rest
  simp only [hr]
  by_cases hz : (Chunks.cut maxBlocksize rest).2.length > 0
  · rw [if_pos hz]
    exact ⟨hs.outgoing,hs.blocknumber,rfl⟩
  · have hn : (Chunks.cut maxBlocksize rest).2 = [] := List.eq_nil_of_length_eq_zero (by omega)
    rw [if_neg hz,hn]
    exact ⟨hs.outgoing,hs.blocknumber,hs.block.trans h⟩

theorem topUp_empty {p : Producer} (h : p.block = []) (bs : Bytes) :
    p.topUp bs = (p,bs) := by
  rw [topUp,if_neg (by simp [h])]

theorem pushData_sent (directMem : Bool) (p : Producer) (bs : Bytes) :
    p.Sent (cutCall p.block (.data bs)).1 (cutCall p.block (.data bs)).2
      (p.pushData directMem bs) := by
  rw [pushData,cutCall]
  by_cases hfull : maxBlocksize ≤ p.block.length
  · rw [if_pos hfull]
    have hone := flushFull_full hfull
    generalize p.flushFull = p₁ at hone
    rw [topUp_empty hone.block]
    simp only
    rw [flushFull_short (p := p₁) (by rw [hone.block]; decide)]
    exact hone.trans (submitFullBlocks_tail directMem hone.block bs)
  rw [if_neg hfull,flushFull_short (by omega)]
  by_cases hempty : p.block.length > 0
  · rw [topUp,if_pos hempty]
    by_cases hroom : bs.length < maxBlocksize - p.block.length
    · have hmin : min bs.length (maxBlocksize - p.block.length) = bs.length := by omega
      have hlen : (p.block ++ bs).length < maxBlocksize := by simp; omega
      simp only [hmin,List.take_length,List.drop_length]
      have hnone : submitFullBlocks directMem { p with block := p.block ++ bs } [] =
          ({ p with block := p.block ++ bs },[]) := by
        rw [submitFullBlocks,if_neg (by decide)]
      rw [flushFull_short hlen,hnone,Chunks.cut_short hlen]
      exact Sent.nothing p _
    · have hmin : min bs.length (maxBlocksize - p.block.length) =
          maxBlocksize - p.block.length := by omega
      have hlen : (p.block ++ bs.take (maxBlocksize - p.block.length)).length = maxBlocksize := by
        simp; omega
      have htake : (p.block ++ bs).take maxBlocksize =
          p.block ++ bs.take (maxBlocksize - p.block.length) := by
        rw [List.take_append,List.take_of_length_le (by omega)]
      have hdrop : (p.block ++ bs).drop maxBlocksize =
          bs.drop (maxBlocksize - p.block.length) := by
        rw [List.drop_append,List.drop_of_length_le (by omega),List.nil_append]
      simp only [hmin]
      have hone := flushFull_full
        (p := { p with block := p.block ++ bs.take (maxBlocksize - p.block.length) })
        (Nat.le_of_eq hlen.symm)
      generalize flushFull _ = p₁ at hone
      rw [Chunks.cut_long (l := p.block ++ bs) (by decide) (by simp; omega),htake,hdrop]
      exact (Sent.nothing p _).trans
        (hone.trans (submitFullBlocks_tail directMem hone.block _))
  · have hn : p.block = [] := List.eq_nil_of_length_eq_zero (by omega)
    rw [topUp_empty hn]
    simp only
    rw [flushFull_short (by rw [hn]; decide),hn,List.nil_append]
    exact submitFullBlocks_tail directMem hn bs

theorem push_sent (directMem : Bool) (p : Producer) (op : PushOp) :
    p.Sent (cutCall p.block op).1 (cutCall p.block op).2 (p.push directMem op) := by
  cases op with
  | data bs => exact p.pushData_sent directMem bs
  | podContiguous bs => exact Sent.nothing p _
  | pod bs =>
    rw [push,pushPod,cutCall]
    by_cases h : p.block.length > minBlocksize
    · have hp : p.block.length > 0 := Nat.lt_of_le_of_lt (Nat.zero_le _) h
      have hf := p.flush_sent
      rw [lastBlock,if_pos hp] at hf
      rw [if_pos h,if_pos h]
      refine ⟨hf.outgoing,hf.blocknumber,?_⟩
      rw [pushPodContiguous,hf.block]
      rfl
    · rw [if_neg h,if_neg h]
      exact Sent.nothing p _

end Producer

/-- Where the caller's thread is: making its calls, in the wait of `finish()`, or gone,
with a hash or by an exception. -/
inductive WriterPhase where
  | pushing : WriterPhase
  | waiting : WriterPhase
  | finished : UInt64 → WriterPhase
  | thrown : String → WriterPhase
  deriving DecidableEq, Repr

/-- The whole writer: the caller with the calls it has yet to make, blocks in compression
tasks, compressed blocks on their way, the sequencer, and what was written. -/
structure WriterPipeline where
  calls : List PushOp
  producer : Producer := {}
  tasks : List Submission := []
  compressed : List (Nat × Compressed) := []
  sequencer : Sequencer Compressed := .empty
  out : Bytes := []
  hashed : Bytes := []
  phase : WriterPhase := .pushing

def WriterPipeline.Idle (s : WriterPipeline) : Prop :=
  s.producer.outgoing = [] ∧ s.tasks = [] ∧ s.compressed = [] ∧ s.sequencer.next = none

section
variable (cp : Compressor) (xxh : Bytes → UInt64) (directMem : Bool) (failure : Option String)

/-- One step of the caller or of one node. `failure` is the exception that ends the calls
of the caller, when they do not end in `finish()`. -/
inductive WriterStep : WriterPipeline → WriterPipeline → Prop
  | call {s : WriterPipeline} {op : PushOp} {calls : List PushOp}
      (pushing : s.phase = .pushing) (taken : s.producer.outgoing = [])
      (next : s.calls = op :: calls) :
      WriterStep s { s with producer := s.producer.push directMem op, calls := calls }
  | finish {s : WriterPipeline} (pushing : s.phase = .pushing)
      (taken : s.producer.outgoing = []) (ended : s.calls = []) (ok : failure = none) :
      WriterStep s { s with producer := s.producer.flush, phase := .waiting }
  | throw {s : WriterPipeline} {msg : String} (pushing : s.phase = .pushing)
      (taken : s.producer.outgoing = []) (ended : s.calls = []) (failed : failure = some msg) :
      WriterStep s { s with phase := .thrown msg }
  | submit {s : WriterPipeline} {sub : Submission} {rest : List Submission}
      (head : s.producer.outgoing = sub :: rest) :
      WriterStep s { s with
        producer := { s.producer with outgoing := rest }
        tasks := s.tasks ++ [sub] }
  | compress {s : WriterPipeline} (before after : List Submission) {sub : Submission}
      (task : s.tasks = before ++ sub :: after) :
      WriterStep s { s with
        tasks := before ++ after
        compressed := s.compressed ++ [(sub.number,cp sub.number sub.bytes)] }
  | sequence {s : WriterPipeline} (before after : List (Nat × Compressed)) {tag : Nat}
      {z : Compressed} (item : s.compressed = before ++ (tag,z) :: after) :
      WriterStep s { s with
        compressed := before ++ after
        sequencer := s.sequencer.put tag z }
  | write {s : WriterPipeline} {z : Compressed} (next : s.sequencer.next = some z) :
      WriterStep s { s with
        sequencer := s.sequencer.release
        out := s.out ++ z.emit
        hashed := s.hashed ++ z.emit }
  | wait {s : WriterPipeline} (waiting : s.phase = .waiting) (idle : s.Idle) :
      WriterStep s { s with phase := .finished (digest xxh s.hashed) }

end

theorem mem_numbered {k n : Nat} {b : Bytes} {blocks : List Bytes} :
    (n,b) ∈ numbered k blocks ↔ ∃ i, n = k+i ∧ blocks[i]? = some b := by
  induction blocks generalizing k with
  | nil => simp [numbered]
  | cons x xs ih =>
    rw [numbered,List.mem_cons,ih]
    constructor
    · rintro (h | ⟨i,rfl,h⟩)
      · cases h
        exact ⟨0,rfl,rfl⟩
      · exact ⟨i+1,by omega,h⟩
    · rintro ⟨i,hn,h⟩
      cases i with
      | zero => exact .inl (by simp_all)
      | succ i => exact .inr ⟨i,by omega,h⟩

def CompressedAs (cp : Compressor) (blocks : List Bytes) (tag : Nat) (z : Compressed) : Prop :=
  ∃ b, blocks[tag]? = some b ∧ z = cp tag b

/-- How the pipeline stands to the blocks cut so far: nothing in it was altered, none of
them is missing, and what was written are the first of them in order. -/
structure Carrying (cp : Compressor) (blocks : List Bytes) (s : WriterPipeline) : Prop where
  blocknumber : s.producer.blocknumber = blocks.length
  submitted : ∀ sub, sub ∈ s.producer.outgoing ∨ sub ∈ s.tasks →
    blocks[sub.number]? = some sub.bytes
  compressed : ∀ x ∈ s.compressed, CompressedAs cp blocks x.1 x.2
  sequenced : s.sequencer.Carries (CompressedAs cp blocks)
  covered : ∀ i < blocks.length, i ∈ s.producer.outgoing.map Submission.number ∨
    i ∈ s.tasks.map Submission.number ∨ i ∈ s.compressed.map Prod.fst ∨ s.sequencer.Settled i
  written : s.sequencer.head ≤ blocks.length
  out : s.out = emitBlocks cp 0 (blocks.take s.sequencer.head)
  hashed : s.hashed = s.out

theorem CompressedAs.grow {cp : Compressor} {blocks : List Bytes} {tag : Nat} {z : Compressed}
    (h : CompressedAs cp blocks tag z) (more : List Bytes) :
    CompressedAs cp (blocks ++ more) tag z := by
  obtain ⟨b,hb,hz⟩ := h
  refine ⟨b,?_,hz⟩
  rw [List.getElem?_append_left (List.getElem?_eq_some_iff.mp hb).1]
  exact hb

theorem Carrying.start (cp : Compressor) (calls : List PushOp) :
    Carrying cp [] { calls := calls } :=
  ⟨rfl,by simp,by simp,Sequencer.carries_empty _,by simp,Nat.le_refl 0,rfl,rfl⟩

theorem Carrying.inPhase {cp : Compressor} {blocks : List Bytes} {s : WriterPipeline}
    (h : Carrying cp blocks s) (phase : WriterPhase) :
    Carrying cp blocks { s with phase := phase } :=
  ⟨h.blocknumber,h.submitted,h.compressed,h.sequenced,h.covered,h.written,h.out,h.hashed⟩

theorem Carrying.sent {cp : Compressor} {blocks new : List Bytes} {block : Bytes}
    {s s' : WriterPipeline} (h : Carrying cp blocks s) (hs : s.producer.Sent new block s'.producer)
    (htasks : s'.tasks = s.tasks) (hcomp : s'.compressed = s.compressed)
    (hseq : s'.sequencer = s.sequencer) (hout : s'.out = s.out) (hhash : s'.hashed = s.hashed) :
    Carrying cp (blocks ++ new) s' where
  blocknumber := by rw [hs.blocknumber,h.blocknumber,List.length_append]
  submitted := by
    intro sub hsub
    rw [htasks] at hsub
    have hold : sub ∈ s.producer.outgoing ∨ sub ∈ s.tasks →
        (blocks ++ new)[sub.number]? = some sub.bytes := by
      intro hm
      have hb := h.submitted sub hm
      rw [List.getElem?_append_left (List.getElem?_eq_some_iff.mp hb).1]
      exact hb
    rcases hsub with hsub | hsub
    · have hm : sub.item ∈ s'.producer.outgoing.map Submission.item := List.mem_map_of_mem hsub
      rw [hs.outgoing,List.mem_append] at hm
      rcases hm with hm | hm
      · obtain ⟨x,hx,hxi⟩ := List.mem_map.mp hm
        have hn : x.number = sub.number := congrArg Prod.fst hxi
        have hb : x.bytes = sub.bytes := congrArg Prod.snd hxi
        have hxo := h.submitted x (.inl hx)
        rw [hn,hb] at hxo
        rw [List.getElem?_append_left (List.getElem?_eq_some_iff.mp hxo).1]
        exact hxo
      · obtain ⟨i,hi,hb⟩ := mem_numbered.mp hm
        rw [hi,h.blocknumber,List.getElem?_append_right (by omega),Nat.add_sub_cancel_left]
        exact hb
    · exact hold (.inr hsub)
  compressed := by
    intro x hx
    rw [hcomp] at hx
    exact (h.compressed x hx).grow new
  sequenced := by
    rw [hseq]
    exact fun tag z hz => (h.sequenced tag z hz).grow new
  covered := by
    intro i hi
    rw [htasks,hcomp,hseq]
    have hnum : s'.producer.outgoing.map Submission.number =
        s.producer.outgoing.map Submission.number ++
          (numbered s.producer.blocknumber new).map Prod.fst := by
      have hmap := congrArg (List.map Prod.fst) hs.outgoing
      simpa [List.map_map,Function.comp_def,Submission.item] using hmap
    rw [hnum,List.mem_append]
    by_cases hlt : i < blocks.length
    · rcases h.covered i hlt with hm | hm
      · exact .inl (.inl hm)
      · exact .inr hm
    · rw [List.length_append] at hi
      have hidx : i - blocks.length < new.length := by omega
      refine .inl (.inr (List.mem_map.mpr ⟨(i,new[i - blocks.length]),?_,rfl⟩))
      rw [mem_numbered]
      exact ⟨i - blocks.length,by rw [h.blocknumber]; omega,by simp [hidx]⟩
  written := by
    rw [hseq,List.length_append]
    exact Nat.le_trans h.written (Nat.le_add_right _ _)
  out := by rw [hout,hseq,h.out,List.take_append_of_le_length h.written]
  hashed := by rw [hhash,hout,h.hashed]

theorem Carrying.submit {cp : Compressor} {blocks : List Bytes} {s : WriterPipeline}
    (h : Carrying cp blocks s) {sub : Submission} {rest : List Submission}
    (head : s.producer.outgoing = sub :: rest) :
    Carrying cp blocks { s with
      producer := { s.producer with outgoing := rest }
      tasks := s.tasks ++ [sub] } where
  blocknumber := h.blocknumber
  submitted := by
    intro x hx
    refine h.submitted x ?_
    rw [head]
    rcases hx with hx | hx
    · exact .inl (List.mem_cons_of_mem _ hx)
    · rcases List.mem_append.mp hx with hx | hx
      · exact .inr hx
      · exact .inl (List.mem_singleton.mp hx ▸ List.mem_cons_self)
  compressed := h.compressed
  sequenced := h.sequenced
  covered := by
    intro i hi
    have hc := h.covered i hi
    rw [head] at hc
    simp only [List.map_cons,List.mem_cons,List.map_append,List.map_nil,List.mem_append,
      List.not_mem_nil,or_false] at hc ⊢
    tauto
  written := h.written
  out := h.out
  hashed := h.hashed

theorem Carrying.compress {cp : Compressor} {blocks : List Bytes} {s : WriterPipeline}
    (h : Carrying cp blocks s) {before after : List Submission} {sub : Submission}
    (task : s.tasks = before ++ sub :: after) :
    Carrying cp blocks { s with
      tasks := before ++ after
      compressed := s.compressed ++ [(sub.number,cp sub.number sub.bytes)] } where
  blocknumber := h.blocknumber
  submitted := by
    intro x hx
    refine h.submitted x ?_
    rw [task]
    rcases hx with hx | hx
    · exact .inl hx
    · exact .inr (mem_of_taken hx)
  compressed := by
    intro x hx
    rcases List.mem_append.mp hx with hx | hx
    · exact h.compressed x hx
    · rw [List.mem_singleton.mp hx]
      exact ⟨sub.bytes,h.submitted sub (.inr (by rw [task]; simp)),rfl⟩
  sequenced := h.sequenced
  covered := by
    intro i hi
    have hc := h.covered i hi
    rw [task,mem_map_taken] at hc
    simp only [List.map_append,List.map_cons,List.map_nil,List.mem_append,List.mem_singleton]
      at hc ⊢
    tauto
  written := h.written
  out := h.out
  hashed := h.hashed

theorem Carrying.sequence {cp : Compressor} {blocks : List Bytes} {s : WriterPipeline}
    (h : Carrying cp blocks s) {before after : List (Nat × Compressed)} {tag : Nat}
    {z : Compressed} (item : s.compressed = before ++ (tag,z) :: after) :
    Carrying cp blocks { s with
      compressed := before ++ after
      sequencer := s.sequencer.put tag z } where
  blocknumber := h.blocknumber
  submitted := h.submitted
  compressed := by
    intro x hx
    refine h.compressed x ?_
    rw [item]
    exact mem_of_taken hx
  sequenced := h.sequenced.put (h.compressed (tag,z) (by rw [item]; simp))
  covered := by
    intro i hi
    -- a number that leaves the list is settled, and settled numbers stay so
    rcases h.covered i hi with hm | hm | hm | hm
    · exact .inl hm
    · exact .inr (.inl hm)
    · rw [item,mem_map_taken] at hm
      rcases hm with rfl | hm
      · exact .inr (.inr (.inr (s.sequencer.settled_put _ z)))
      · exact .inr (.inr (.inl hm))
    · exact .inr (.inr (.inr (hm.put tag z)))
  written := by simpa using h.written
  out := by simpa using h.out
  hashed := h.hashed

theorem Carrying.write {cp : Compressor} {blocks : List Bytes} {s : WriterPipeline}
    (h : Carrying cp blocks s) {z : Compressed} (next : s.sequencer.next = some z) :
    Carrying cp blocks { s with
      sequencer := s.sequencer.release
      out := s.out ++ z.emit
      hashed := s.hashed ++ z.emit } := by
  obtain ⟨b,hb,hz⟩ := h.sequenced _ z next
  obtain ⟨hlt,hget⟩ := List.getElem?_eq_some_iff.mp hb
  exact {
    blocknumber := h.blocknumber
    submitted := h.submitted
    compressed := h.compressed
    sequenced := h.sequenced.release
    covered := by
      intro i hi
      rcases h.covered i hi with hm | hm | hm | hm
      · exact .inl hm
      · exact .inr (.inl hm)
      · exact .inr (.inr (.inl hm))
      · exact .inr (.inr (.inr hm.release))
    written := hlt
    out := by
      have htake : blocks.take (s.sequencer.head+1) = blocks.take s.sequencer.head ++ [b] := by
        rw [List.take_add_one,hb]
        rfl
      have hlen : (blocks.take s.sequencer.head).length = s.sequencer.head := by
        rw [List.length_take]
        omega
      simp only [Sequencer.release]
      rw [htake,emitBlocks_append,hlen,h.out,hz]
      simp [emitBlocks]
    hashed := by simp only; rw [h.hashed] }

def Accounts (xxh : Bytes → UInt64) (calls : List PushOp) (blocks : List Bytes)
    (s : WriterPipeline) : Prop :=
  match s.phase with
  | .pushing | .thrown _ =>
      ∃ made, calls = made ++ s.calls ∧ cutCalls [] made = (blocks,s.producer.block)
  | .waiting => blocks = blocksOf [] calls
  | .finished hash => blocks = blocksOf [] calls ∧ s.Idle ∧ hash = digest xxh s.hashed

def WriterInv (cp : Compressor) (xxh : Bytes → UInt64) (calls : List PushOp)
    (s : WriterPipeline) : Prop :=
  ∃ blocks, Carrying cp blocks s ∧ Accounts xxh calls blocks s

section
variable {cp : Compressor} {xxh : Bytes → UInt64} {directMem : Bool} {failure : Option String}

theorem WriterInv.start (calls : List PushOp) : WriterInv cp xxh calls { calls := calls } :=
  ⟨[],Carrying.start cp calls,[],rfl,rfl⟩

theorem Accounts.node_step {calls : List PushOp} {blocks : List Bytes} {s s' : WriterPipeline}
    (h : Accounts xxh calls blocks s) (hcalls : s'.calls = s.calls)
    (hblock : s'.producer.block = s.producer.block) (hphase : s'.phase = s.phase)
    (hbusy : ¬ s.Idle) : Accounts xxh calls blocks s' := by
  rw [Accounts,hphase,hcalls,hblock]
  rw [Accounts] at h
  cases hp : s.phase with
  | pushing => rw [hp] at h; exact h
  | waiting => rw [hp] at h; exact h
  | thrown msg => rw [hp] at h; exact h
  | finished hash => rw [hp] at h; exact absurd h.2.1 hbusy

theorem WriterInv.step {calls : List PushOp} {s t : WriterPipeline}
    (h : WriterInv cp xxh calls s) (hstep : WriterStep cp xxh directMem failure s t) :
    WriterInv cp xxh calls t := by
  obtain ⟨blocks,hc,ha⟩ := h
  cases hstep with
  | @call op rest pushing taken next =>
    simp only [Accounts,pushing] at ha
    obtain ⟨made,hmade,hcut⟩ := ha
    have hsent := s.producer.push_sent directMem op
    refine ⟨blocks ++ (cutCall s.producer.block op).1,hc.sent hsent rfl rfl rfl rfl rfl,?_⟩
    simp only [Accounts,pushing]
    refine ⟨made ++ [op],by rw [hmade,next]; simp,?_⟩
    rw [cutCalls_append,hcut,hsent.block]
    simp [cutCalls]
  | finish pushing taken ended ok =>
    simp only [Accounts,pushing] at ha
    obtain ⟨made,hmade,hcut⟩ := ha
    have hsent := s.producer.flush_sent
    refine ⟨blocks ++ lastBlock s.producer.block,hc.sent hsent rfl rfl rfl rfl rfl,?_⟩
    have hall : calls = made := by rw [hmade,ended,List.append_nil]
    simp only [Accounts]
    rw [hall,blocksOf,hcut]
  | throw pushing taken ended failed =>
    simp only [Accounts,pushing] at ha
    exact ⟨blocks,hc.inPhase _,ha⟩
  | @submit sub rest head =>
    refine ⟨blocks,hc.submit head,ha.node_step rfl rfl rfl ?_⟩
    rintro ⟨hidle,_⟩
    rw [head] at hidle
    cases hidle
  | compress before after task =>
    exact ⟨blocks,hc.compress task,ha.node_step rfl rfl rfl
      fun idle => taken_ne_nil task idle.2.1⟩
  | sequence before after item =>
    exact ⟨blocks,hc.sequence item,ha.node_step rfl rfl rfl
      fun idle => taken_ne_nil item idle.2.2.1⟩
  | write next =>
    refine ⟨blocks,hc.write next,ha.node_step rfl rfl rfl ?_⟩
    rintro ⟨_,_,_,hidle⟩
    rw [next] at hidle
    cases hidle
  | wait waiting idle =>
    simp only [Accounts,waiting] at ha
    exact ⟨blocks,hc.inPhase _,ha,idle,rfl⟩

/-- What holds of the writer throughout any run from its construction. -/
theorem WriterInv.run {calls : List PushOp} {s : WriterPipeline}
    (run : Runs (WriterStep cp xxh directMem failure) { calls := calls } s) :
    WriterInv cp xxh calls s :=
  invariant (WriterInv.start calls) (fun _ _ h hs => h.step hs) run

end

theorem Carrying.all_written {cp : Compressor} {blocks : List Bytes} {s : WriterPipeline}
    (h : Carrying cp blocks s) (idle : s.Idle) : s.out = emitBlocks cp 0 blocks := by
  obtain ⟨ho,ht,hc,hn⟩ := idle
  have hall : blocks.length ≤ s.sequencer.head := by
    by_contra hlt
    rcases h.covered s.sequencer.head (by omega) with hm | hm | hm | hm | hm
    · rw [ho] at hm; cases hm
    · rw [ht] at hm; cases hm
    · rw [hc] at hm; cases hm
    · exact Nat.lt_irrefl _ hm
    · rw [show s.sequencer.slots s.sequencer.head = none from hn] at hm
      cases hm
  rw [h.out,List.take_of_length_le hall]

theorem cutCall_count (block : Bytes) (op : PushOp) :
    (cutCall block op).1.length ≤ op.bytes.length+1 := by
  cases op with
  | podContiguous bs => exact Nat.zero_le _
  | pod bs =>
    rw [cutCall]
    split <;> simp
  | data bs =>
    rw [cutCall]
    by_cases hfull : block.length ≥ maxBlocksize
    · have hc := Chunks.cut_count (m := maxBlocksize) bs
      have hm : 1 ≤ maxBlocksize := by decide
      have hle := Nat.le_trans (Nat.le_mul_of_pos_right _ hm) hc
      rw [if_pos hfull]
      simpa [PushOp.bytes] using hle
    · have hc := Chunks.cut_count (m := maxBlocksize) (block ++ bs)
      rw [if_neg hfull]
      simp only [List.length_append,PushOp.bytes,maxBlocksize] at hc hfull ⊢
      omega

def callsWeight : List PushOp → Nat
  | [] => 0
  | op :: ops => 4*op.bytes.length+5+callsWeight ops

theorem callsWeight_eq (calls : List PushOp) :
    callsWeight calls = 4*(pushedBytes calls).length+5*calls.length := by
  induction calls with
  | nil => rfl
  | cons op ops ih =>
    rw [callsWeight,ih,pushedBytes_cons,List.length_append,List.length_cons]
    omega

def WriterPhase.weight : WriterPhase → Nat
  | .pushing => 6
  | .waiting => 1
  | .finished _ | .thrown _ => 0

/-- A bound on the steps that the pipeline has before it. -/
def WriterPipeline.weight (s : WriterPipeline) : Nat :=
  callsWeight s.calls + s.phase.weight + 3*s.producer.outgoing.length + 2*s.tasks.length +
    s.compressed.length + (s.producer.blocknumber - s.sequencer.head)

section
variable {cp : Compressor} {xxh : Bytes → UInt64} {directMem : Bool} {failure : Option String}

theorem length_numbered (k : Nat) (blocks : List Bytes) :
    (numbered k blocks).length = blocks.length := by
  induction blocks generalizing k with
  | nil => rfl
  | cons b bs ih => simp [numbered,ih]

theorem Producer.Sent.outgoing_length {p p' : Producer} {blocks : List Bytes} {block : Bytes}
    (h : p.Sent blocks block p') :
    p'.outgoing.length = p.outgoing.length+blocks.length := by
  simpa [length_numbered] using congrArg List.length h.outgoing

/-- Every step uses something up, so no run goes on forever. -/
theorem WriterStep.weight_lt {calls : List PushOp} {s t : WriterPipeline}
    (h : WriterInv cp xxh calls s) (hstep : WriterStep cp xxh directMem failure s t) :
    t.weight < s.weight := by
  obtain ⟨blocks,hc,_⟩ := h
  have hhead : s.sequencer.head ≤ s.producer.blocknumber := by
    rw [hc.blocknumber]
    exact hc.written
  cases hstep with
  | @call op rest pushing taken next =>
    have hsent := s.producer.push_sent directMem op
    have hcount := cutCall_count s.producer.block op
    simp only [WriterPipeline.weight,next,callsWeight,hsent.outgoing_length,hsent.blocknumber]
    omega
  | finish pushing taken ended ok =>
    have hsent := s.producer.flush_sent
    have hcount : (lastBlock s.producer.block).length ≤ 1 := by
      rw [lastBlock]
      split <;> simp
    simp only [WriterPipeline.weight,hsent.outgoing_length,hsent.blocknumber,pushing,
      WriterPhase.weight]
    omega
  | throw pushing taken ended failed =>
    simp only [WriterPipeline.weight,pushing,WriterPhase.weight]
    omega
  | submit head =>
    simp only [WriterPipeline.weight,head,List.length_cons,List.length_append,List.length_nil]
    omega
  | compress before after task =>
    simp only [WriterPipeline.weight,task,List.length_cons,List.length_append,List.length_nil]
    omega
  | sequence before after item =>
    simp only [WriterPipeline.weight,item,List.length_cons,List.length_append,
      Sequencer.head_put]
    omega
  | write next =>
    obtain ⟨b,hb,_⟩ := hc.sequenced _ _ next
    have hlt := (List.getElem?_eq_some_iff.mp hb).1
    rw [← hc.blocknumber] at hlt
    simp only [WriterPipeline.weight,Sequencer.release]
    omega
  | wait waiting idle =>
    simp only [WriterPipeline.weight,waiting,WriterPhase.weight]
    omega

def WriterPhase.Exited : WriterPhase → Prop
  | .finished _ | .thrown _ => True
  | .pushing | .waiting => False

theorem WriterPipeline.moves (s : WriterPipeline) :
    s.phase.Exited ∨ ∃ t, WriterStep cp xxh directMem failure s t := by
  cases hout : s.producer.outgoing with
  | cons sub rest => exact .inr ⟨_,.submit hout⟩
  | nil =>
  cases htasks : s.tasks with
  | cons sub rest => exact .inr ⟨_,.compress [] rest htasks⟩
  | nil =>
  cases hcomp : s.compressed with
  | cons x rest => exact .inr ⟨_,.sequence [] rest hcomp⟩
  | nil =>
  cases hnext : s.sequencer.next with
  | some z => exact .inr ⟨_,.write hnext⟩
  | none =>
  cases hphase : s.phase with
  | finished hash => exact .inl trivial
  | thrown msg => exact .inl trivial
  | waiting => exact .inr ⟨_,.wait hphase ⟨hout,htasks,hcomp,hnext⟩⟩
  | pushing =>
    cases hcalls : s.calls with
    | cons op rest => exact .inr ⟨_,.call hphase hout hcalls⟩
    | nil =>
      cases hfail : failure with
      | none => exact .inr ⟨_,.finish hphase hout hcalls rfl⟩
      | some msg => exact .inr ⟨_,.throw hphase hout hcalls rfl⟩

end

abbrev WriterRuns (cp : Compressor) (xxh : Bytes → UInt64) (directMem : Bool)
    (failure : Option String) (calls : List PushOp) : WriterPipeline → Prop :=
  Runs (WriterStep cp xxh directMem failure) { calls := calls }

section
variable {cp : Compressor} {xxh : Bytes → UInt64} {directMem : Bool} {failure : Option String}
  {calls : List PushOp} {s : WriterPipeline}

/-- What `finish()` of the multithreaded writer leaves and returns. -/
theorem WriterRuns.finished (run : WriterRuns cp xxh directMem failure calls s) {hash : UInt64}
    (ended : s.phase = .finished hash) :
    s.out = emitBlocks cp 0 (blocksOf [] calls) ∧ hash = digest xxh s.out := by
  obtain ⟨blocks,hc,ha⟩ := WriterInv.run run
  simp only [Accounts,ended] at ha
  obtain ⟨rfl,idle,hhash⟩ := ha
  exact ⟨hc.all_written idle,by rw [hhash,hc.hashed]⟩

theorem WriterRuns.not_thrown (run : WriterRuns cp xxh directMem none calls s) (msg : String) :
    s.phase ≠ .thrown msg := by
  have keeps : ∀ s t : WriterPipeline, s.phase ≠ .thrown msg →
      WriterStep cp xxh directMem none s t → t.phase ≠ .thrown msg := by
    intro s t hs hstep
    cases hstep with
    | throw pushing taken ended failed => cases failed
    | finish => intro h; cases h
    | wait => intro h; cases h
    | _ => exact hs
  exact invariant (I := fun s => s.phase ≠ .thrown msg) (by intro h; cases h) keeps run

theorem WriterRuns.exited_finished (run : WriterRuns cp xxh directMem none calls s)
    (exited : s.phase.Exited) : ∃ hash, s.phase = .finished hash := by
  cases hphase : s.phase with
  | finished hash => exact ⟨hash,rfl⟩
  | thrown msg => exact absurd hphase (run.not_thrown msg)
  | pushing => rw [hphase] at exited; cases exited
  | waiting => rw [hphase] at exited; cases exited

theorem WriterRuns.not_finished {msg : String}
    (run : WriterRuns cp xxh directMem (some msg) calls s) :
    s.phase = .pushing ∨ s.phase = .thrown msg := by
  have keeps : ∀ s t : WriterPipeline, s.phase = .pushing ∨ s.phase = .thrown msg →
      WriterStep cp xxh directMem (some msg) s t →
      t.phase = .pushing ∨ t.phase = .thrown msg := by
    intro s t hs hstep
    cases hstep with
    | finish pushing taken ended ok => cases ok
    | throw pushing taken ended failed => cases failed; exact .inr rfl
    | wait waiting idle => rw [waiting] at hs; rcases hs with hs | hs <;> cases hs
    | _ => exact hs
  exact invariant (I := fun s => s.phase = .pushing ∨ s.phase = .thrown msg) (.inl rfl) keeps run

theorem WriterRuns.exits (run : WriterRuns cp xxh directMem failure calls s) :
    ∃ t, Runs (WriterStep cp xxh directMem failure) s t ∧ t.phase.Exited :=
  finishes (I := WriterInv cp xxh calls) WriterPipeline.weight (fun _ _ h hs => h.step hs)
    (fun s h => s.moves.imp_right fun ⟨t,ht⟩ => ⟨t,ht,ht.weight_lt h⟩) (WriterInv.run run)

theorem WriterRuns.completes (run : WriterRuns cp xxh directMem none calls s) :
    ∃ t hash, Runs (WriterStep cp xxh directMem none) s t ∧ t.phase = .finished hash := by
  obtain ⟨t,ht,exited⟩ := run.exits
  obtain ⟨hash,hphase⟩ := WriterRuns.exited_finished (run.trans ht) exited
  exact ⟨t,hash,ht,hphase⟩

end

/-- Whatever the order in which compressions complete and blocks reach the writer, the
multithreaded writer leaves the stream and the hash of the single-threaded one; no run
goes on forever, and none gets stuck before `finish()` has returned. -/
theorem multithreaded_writer (cp : Compressor) (xxh : Bytes → UInt64) (directMem : Bool)
    (calls : List PushOp) :
    (∀ s hash, WriterRuns cp xxh directMem none calls s → s.phase = .finished hash →
      s.out = ((({} : BlockWriter).pushAll cp calls).finish cp xxh).1.out ∧
        hash = ((({} : BlockWriter).pushAll cp calls).finish cp xxh).2) ∧
      (∀ s, WriterRuns cp xxh directMem none calls s →
        ∃ t hash, Runs (WriterStep cp xxh directMem none) s t ∧ t.phase = .finished hash) ∧
      (∀ run : Nat → WriterPipeline, run 0 = { calls := calls } →
        ∃ n, ¬ WriterStep cp xxh directMem none (run n) (run (n+1))) := by
  refine ⟨fun s hash run ended => ?_,fun s run => run.completes,fun run hstart => ?_⟩
  · rw [BlockWriter.finish_eq]
    obtain ⟨hout,hhash⟩ := run.finished ended
    exact ⟨hout,by rw [hhash,hout]⟩
  · have keeps : ∀ s t, WriterInv cp xxh calls s → WriterStep cp xxh directMem none s t →
        WriterInv cp xxh calls t := fun _ _ h hs => h.step hs
    obtain ⟨n,_,hn⟩ := no_longer WriterPipeline.weight keeps
      (fun _ _ h hs => hs.weight_lt h) (hstart ▸ WriterInv.start calls)
    exact ⟨n,hn⟩

/-- Three blocks through the pipeline, the last of them compressed first. -/
theorem multithreaded_writer_overtaken :
    ∃ (calls : List PushOp) (m s : WriterPipeline),
      WriterRuns storedCompressor (fun _ => 5) true none calls m ∧
      m.compressed.map Prod.fst = [2,1,0] ∧
      Runs (WriterStep storedCompressor (fun _ => 5) true none) m s ∧ s.phase = .finished 5 ∧
      s.out = ((({} : BlockWriter).pushAll storedCompressor calls).finish
        storedCompressor fun _ => 5).1.out := by
  obtain ⟨payload,hp⟩ : ∃ payload : Bytes, payload.length = 2*maxBlocksize :=
    ⟨List.replicate _ 0,List.length_replicate⟩
  have hpushed : ({} : Producer).push true (.data payload) = ⟨[],2,
      [⟨0,true,payload.take maxBlocksize⟩,⟨1,true,payload.drop maxBlocksize⟩]⟩ := by
    have hfull : payload.length ≥ maxBlocksize := by omega
    have hrest : (payload.drop maxBlocksize).length = maxBlocksize := by
      rw [List.length_drop]
      omega
    have hblocks : ({} : Producer).submitFullBlocks true payload = (⟨[],2,
        [⟨0,true,payload.take maxBlocksize⟩,⟨1,true,payload.drop maxBlocksize⟩]⟩,[]) := by
      rw [Producer.submitFullBlocks,if_pos hfull,Producer.submitFullBlocks,
        if_pos (Nat.le_of_eq hrest.symm),List.take_of_length_le (Nat.le_of_eq hrest),
        List.drop_of_length_le (Nat.le_of_eq hrest),Producer.submitFullBlocks,
        if_neg (by decide)]
      rfl
    change (let (p,rest) := ({} : Producer).submitFullBlocks true payload
      if rest.length > 0 then { p with block := rest } else p) = _
    rw [hblocks]
    rfl
  have called : WriterRuns storedCompressor (fun _ => 5) true none
      [.data payload,.pod [0x00]] ⟨[.pod [0x00]],⟨[],2,
        [⟨0,true,payload.take maxBlocksize⟩,⟨1,true,payload.drop maxBlocksize⟩]⟩,
        [],[],.empty,[],[],.pushing⟩ := by
    rw [← hpushed]
    exact .single (.call rfl rfl rfl)
  have direct := (called.tail (.submit rfl)).tail (.submit rfl)
  have flushed := (direct.tail (.call rfl rfl rfl)).tail (.finish rfl rfl rfl rfl)
  have last := (flushed.tail (.submit rfl)).tail (.compress [_,_] [] rfl)
  have second := last.tail (.compress [_] [] rfl)
  have first := second.tail (.compress [] [] rfl)
  have compressed : WriterRuns storedCompressor (fun _ => 5) true none
      [.data payload,.pod [0x00]] ⟨[],⟨[],3,[]⟩,[],[(2,storedCompressor 2 [0x00]),
        (1,storedCompressor 1 (payload.drop maxBlocksize)),
        (0,storedCompressor 0 (payload.take maxBlocksize))],.empty,[],[],.waiting⟩ := first
  obtain ⟨s,drained,hphase⟩ : ∃ s, Runs (WriterStep storedCompressor (fun _ => 5) true none)
      ⟨[],⟨[],3,[]⟩,[],[(2,storedCompressor 2 [0x00]),
        (1,storedCompressor 1 (payload.drop maxBlocksize)),
        (0,storedCompressor 0 (payload.take maxBlocksize))],.empty,[],[],.waiting⟩ s ∧
      s.phase = .finished 5 := by
    exact ⟨_,.head (.sequence [] [_,_] rfl) (.head (.sequence [] [_] rfl)
      (.head (.sequence [] [] rfl) (.head (.write rfl) (.head (.write rfl)
        (.head (.write rfl) (.single (.wait rfl ⟨rfl,rfl,rfl,rfl⟩))))))),rfl⟩
  exact ⟨_,_,s,compressed,rfl,drained,hphase,((multithreaded_writer storedCompressor
    (fun _ => 5) true _).1 _ _ (compressed.trans drained) hphase).1⟩

end QData
