import QData.WriterDiscipline
import QData.WriterPipeline
/-! The block buffer under the calls of the stream writer: the memory that both block
writers copy into, with every copy checked. -/
set_option autoImplicit false

namespace QData
open Words

/-- `memcpy(block.get() + offset, …)`; there is no result when it runs past the block. -/
def copyInto (offset : Nat) (src : Bytes) (m : BlockMemory) : Option BlockMemory :=
  if h : offset+src.length ≤ maxBlocksize then
    some ⟨writeAt m.1 offset src,by rw [length_writeAt (by rw [m.2]; exact h)]; exact m.2⟩
  else none

/-- The memory a writer goes on with after its `k`-th flush. The single-threaded writer
keeps its block, the multithreaded one takes any that was returned, or a new one. -/
abbrev Pool := Nat → BlockMemory → BlockMemory

/-- A block writer as far as its buffer goes; `emitted` are the blocks that went to the
compressor, or into a compression task. -/
structure BlockBuffer where
  memory : BlockMemory
  currentBlocksize : Nat := 0
  emitted : List Bytes := []

namespace BlockBuffer

def current (b : BlockBuffer) : Bytes := b.memory.1.take b.currentBlocksize

def append (src : Bytes) (b : BlockBuffer) : Option BlockBuffer := do
  let memory ← copyInto b.currentBlocksize src b.memory
  some { b with memory, currentBlocksize := b.currentBlocksize+src.length }

def flush (pool : Pool) (b : BlockBuffer) : BlockBuffer :=
  if b.currentBlocksize > 0 then
    { memory := pool b.emitted.length b.memory, emitted := b.emitted ++ [b.current] }
  else b

def flushFull (pool : Pool) (b : BlockBuffer) : BlockBuffer :=
  if b.currentBlocksize ≥ maxBlocksize then b.flush pool else b

def topUp (inbuffer : Bytes) (b : BlockBuffer) : Option (BlockBuffer × Bytes) :=
  if b.currentBlocksize > 0 then do
    let addLength := min inbuffer.length (maxBlocksize - b.currentBlocksize)
    let b ← b.append (inbuffer.take addLength)
    some (b,inbuffer.drop addLength)
  else some (b,inbuffer)

def emitFullBlocks (b : BlockBuffer) (rest : Bytes) : BlockBuffer × Bytes :=
  if rest.length ≥ maxBlocksize then
    emitFullBlocks { b with emitted := b.emitted ++ [rest.take maxBlocksize] }
      (rest.drop maxBlocksize)
  else (b,rest)
termination_by rest.length
decreasing_by simp only [List.length_drop,maxBlocksize] at *; omega

/-- The full-block loop and what it leaves. The copy starts at the front of the buffer and
`add_length` is a `uint32_t`. -/
def pushRest (rest : Bytes) (b : BlockBuffer) : Option BlockBuffer :=
  let r := b.emitFullBlocks rest
  if r.2.length > 0 then do
    let addLength := r.2.length % 2 ^ 32
    let memory ← copyInto 0 (r.2.take addLength) r.1.memory
    some { r.1 with memory, currentBlocksize := addLength }
  else some r.1

def pushData (pool : Pool) (inbuffer : Bytes) (b : BlockBuffer) : Option BlockBuffer := do
  let r ← (b.flushFull pool).topUp inbuffer
  (r.1.flushFull pool).pushRest r.2

def pushPod (pool : Pool) (pod : Bytes) (b : BlockBuffer) : Option BlockBuffer :=
  (if b.currentBlocksize > minBlocksize then b.flush pool else b).append pod

def push (pool : Pool) (b : BlockBuffer) : PushOp → Option BlockBuffer
  | .pod bs => b.pushPod pool bs
  | .podContiguous bs => b.append bs
  | .data bs => b.pushData pool bs

def pushAll (pool : Pool) (b : BlockBuffer) : List PushOp → Option BlockBuffer
  | [] => some b
  | op :: ops => b.push pool op >>= fun b => pushAll pool b ops

structure Holds (b : BlockBuffer) (block : Bytes) : Prop where
  size : b.currentBlocksize = block.length
  front : b.memory.1.take block.length = block

structure Sent (b : BlockBuffer) (blocks : List Bytes) (block : Bytes) (b' : BlockBuffer) :
    Prop where
  emitted : b'.emitted = b.emitted ++ blocks
  holds : b'.Holds block

theorem Holds.current {b : BlockBuffer} {block : Bytes} (h : b.Holds block) :
    b.current = block := by
  rw [BlockBuffer.current,h.size]
  exact h.front

theorem Holds.room {b : BlockBuffer} {block : Bytes} (h : b.Holds block) :
    block.length ≤ maxBlocksize := by
  have hlen := congrArg List.length h.front
  rw [List.length_take,b.memory.2] at hlen
  omega

theorem Holds.empty {b : BlockBuffer} (h : b.currentBlocksize = 0) : b.Holds [] := ⟨h,rfl⟩

theorem Sent.nothing {b : BlockBuffer} {block : Bytes} (h : b.Holds block) :
    b.Sent [] block b := ⟨by simp,h⟩

theorem Sent.trans {b b' b'' : BlockBuffer} {xs ys : List Bytes} {block c : Bytes}
    (h : b.Sent xs block b') (k : b'.Sent ys c b'') : b.Sent (xs ++ ys) c b'' where
  emitted := by rw [k.emitted,h.emitted,List.append_assoc]
  holds := k.holds

theorem copyInto_front (front src : Bytes) {m : BlockMemory}
    (hfront : m.1.take front.length = front) (h : front.length+src.length ≤ maxBlocksize) :
    ∃ m', copyInto front.length src m = some m' ∧
      m'.1.take (front ++ src).length = front ++ src := by
  refine ⟨_,dif_pos h,?_⟩
  simp only [writeAt]
  rw [hfront,List.take_left' rfl]

theorem append_sent {b : BlockBuffer} {block : Bytes} (hb : b.Holds block) (src : Bytes)
    (h : block.length+src.length ≤ maxBlocksize) :
    ∃ b', b.append src = some b' ∧ b.Sent [] (block ++ src) b' := by
  obtain ⟨m,hcopy,hm⟩ := copyInto_front block src hb.front h
  refine ⟨_,by rw [append,hb.size,hcopy]; rfl,by simp,?_⟩
  exact ⟨by simp,hm⟩

theorem flush_sent (pool : Pool) {b : BlockBuffer} {block : Bytes} (hb : b.Holds block) :
    b.Sent (lastBlock block) [] (b.flush pool) := by
  rw [flush,lastBlock,hb.size]
  by_cases h : block.length > 0
  · rw [if_pos h,if_pos h,hb.current]
    exact ⟨rfl,.empty rfl⟩
  · have hn : block = [] := List.eq_nil_of_length_eq_zero (by omega)
    rw [if_neg h,if_neg h]
    exact .nothing (hn ▸ hb)

theorem flushFull_short (pool : Pool) {b : BlockBuffer} {block : Bytes} (hb : b.Holds block)
    (h : block.length < maxBlocksize) : b.flushFull pool = b := by
  rw [flushFull,hb.size,if_neg (by omega)]

theorem flushFull_full (pool : Pool) {b : BlockBuffer} {block : Bytes} (hb : b.Holds block)
    (h : maxBlocksize ≤ block.length) : b.Sent [block] [] (b.flushFull pool) := by
  have hp : block.length > 0 := Nat.lt_of_lt_of_le (by decide) h
  have hs := flush_sent pool hb
  rw [lastBlock,if_pos hp] at hs
  rw [flushFull,hb.size,if_pos h]
  exact hs

theorem emitFullBlocks_sent {block : Bytes} (b : BlockBuffer) (rest : Bytes)
    (hb : b.Holds block) :
    b.Sent (Chunks.cut maxBlocksize rest).1 block (b.emitFullBlocks rest).1 ∧
      (b.emitFullBlocks rest).2 = (Chunks.cut maxBlocksize rest).2 := by
  induction b, rest using emitFullBlocks.induct with
  | case1 b rest h ih =>
    rw [emitFullBlocks,if_pos h,Chunks.cut_long (by decide) h]
    obtain ⟨hs,hr⟩ := ih ⟨hb.size,hb.front⟩
    exact ⟨⟨by rw [hs.emitted,List.append_assoc]; rfl,hs.holds⟩,hr⟩
  | case2 b rest h =>
    rw [emitFullBlocks,if_neg h,Chunks.cut_short (by omega)]
    exact ⟨.nothing hb,rfl⟩

theorem pushRest_sent {b : BlockBuffer} {block rest : Bytes} (hb : b.Holds block)
    (h : block = [] ∨ rest = []) :
    ∃ b', b.pushRest rest = some b' ∧
      b.Sent (Chunks.cut maxBlocksize rest).1 (block ++ (Chunks.cut maxBlocksize rest).2) b' := by
  obtain ⟨hs,hr⟩ := emitFullBlocks_sent b rest hb
  have hlt : (Chunks.cut maxBlocksize rest).2.length < maxBlocksize :=
    Chunks.cut_rest_lt (by decide) rest
  have hpush : b.pushRest rest = if (b.emitFullBlocks rest).2.length > 0 then
      (copyInto 0 ((b.emitFullBlocks rest).2.take ((b.emitFullBlocks rest).2.length % 2 ^ 32))
        (b.emitFullBlocks rest).1.memory).bind fun m =>
          some ⟨m,(b.emitFullBlocks rest).2.length % 2 ^ 32,(b.emitFullBlocks rest).1.emitted⟩
      else some (b.emitFullBlocks rest).1 := rfl
  rw [hpush,hr]
  by_cases hz : (Chunks.cut maxBlocksize rest).2.length > 0
  · have hempty : block = [] := by
      rcases h with h | rfl
      · exact h
      · rw [Chunks.cut_short (by decide)] at hz
        cases hz
    have hlen : (Chunks.cut maxBlocksize rest).2.length % 2 ^ 32 =
        (Chunks.cut maxBlocksize rest).2.length :=
      Nat.mod_eq_of_lt (Nat.lt_trans hlt (by decide))
    have hroom : ([] : Bytes).length+(Chunks.cut maxBlocksize rest).2.length ≤ maxBlocksize := by
      rw [List.length_nil]
      omega
    obtain ⟨m,hcopy,hm⟩ := copyInto_front [] (Chunks.cut maxBlocksize rest).2
      (m := (b.emitFullBlocks rest).1.memory) rfl hroom
    rw [if_pos hz,hlen,List.take_length,show (0 : Nat) = ([] : Bytes).length from rfl,hcopy,hempty]
    exact ⟨_,rfl,hs.emitted,rfl,hm⟩
  · have hn : (Chunks.cut maxBlocksize rest).2 = [] := List.eq_nil_of_length_eq_zero (by omega)
    rw [if_neg hz,hn,List.append_nil]
    exact ⟨_,rfl,hs⟩

theorem topUp_empty {b : BlockBuffer} (hb : b.Holds []) (bs : Bytes) :
    b.topUp bs = some (b,bs) := by
  rw [topUp,hb.size,if_neg (by decide)]

theorem topUp_sent {b : BlockBuffer} {block : Bytes} (hb : b.Holds block)
    (hp : block.length > 0) (bs : Bytes) :
    ∃ b', b.topUp bs = some (b',bs.drop (maxBlocksize - block.length)) ∧
      b.Sent [] (block ++ bs.take (maxBlocksize - block.length)) b' := by
  have hroom := hb.room
  have hmin : bs.take (min bs.length (maxBlocksize - block.length)) =
      bs.take (maxBlocksize - block.length) := by
    rw [Nat.min_comm,← List.take_take,List.take_length]
  have hdrop : bs.drop (min bs.length (maxBlocksize - block.length)) =
      bs.drop (maxBlocksize - block.length) := by
    rcases Nat.le_total bs.length (maxBlocksize - block.length) with h | h
    · rw [Nat.min_eq_left h,List.drop_length,List.drop_of_length_le h]
    · rw [Nat.min_eq_right h]
  obtain ⟨b',happend,hs⟩ := append_sent hb (bs.take (maxBlocksize - block.length))
    (by rw [List.length_take]; omega)
  refine ⟨b',?_,hs⟩
  rw [topUp,hb.size,if_pos hp]
  simp only [hmin,hdrop,happend]
  rfl

theorem pushData_loop (pool : Pool) {b : BlockBuffer} {block : Bytes} (hb : b.Holds block)
    (bs : Bytes) :
    ∃ r blocks block', (b.flushFull pool).topUp bs = some r ∧
      b.Sent blocks block' (r.1.flushFull pool) ∧ (block' = [] ∨ r.2 = []) ∧
      cutCall block (.data bs) = (blocks ++ (Chunks.cut maxBlocksize r.2).1,
        block' ++ (Chunks.cut maxBlocksize r.2).2) := by
  by_cases hfull : maxBlocksize ≤ block.length
  · have hflush := flushFull_full pool hb hfull
    have hsame := flushFull_short pool hflush.holds (by decide)
    refine ⟨_,[block],[],topUp_empty hflush.holds bs,by rw [hsame]; exact hflush,.inl rfl,?_⟩
    rw [cutCall,if_pos hfull]
    rfl
  rw [flushFull_short pool hb (by omega),cutCall,if_neg hfull]
  by_cases hempty : block.length > 0
  · obtain ⟨b₁,htop,hs⟩ := topUp_sent hb hempty bs
    by_cases hroom : bs.length < maxBlocksize - block.length
    · -- all of it fits, and nothing is left for the loop
      rw [List.drop_of_length_le (by omega)] at htop
      rw [List.take_of_length_le (by omega)] at hs
      have hlen : (block ++ bs).length < maxBlocksize := by rw [List.length_append]; omega
      have hsame := flushFull_short pool hs.holds hlen
      refine ⟨_,[],block ++ bs,htop,by rw [hsame]; exact hs,.inr rfl,?_⟩
      rw [Chunks.cut_short hlen]
      simp [Chunks.cut_short (l := ([] : Bytes)) (m := maxBlocksize) (by decide)]
    · -- the buffer was filled and goes out
      have hlen : (block ++ bs.take (maxBlocksize - block.length)).length = maxBlocksize := by
        rw [List.length_append,List.length_take]
        omega
      have htake : (block ++ bs).take maxBlocksize =
          block ++ bs.take (maxBlocksize - block.length) := by
        rw [List.take_append,List.take_of_length_le (by omega)]
      have hdrop : (block ++ bs).drop maxBlocksize =
          bs.drop (maxBlocksize - block.length) := by
        rw [List.drop_append,List.drop_of_length_le (by omega),List.nil_append]
      have hflush := flushFull_full pool hs.holds (Nat.le_of_eq hlen.symm)
      refine ⟨_,_,[],htop,hs.trans hflush,.inl rfl,?_⟩
      rw [Chunks.cut_long (by decide) (by rw [List.length_append]; omega),htake,hdrop]
      rfl
  · have hn : block = [] := List.eq_nil_of_length_eq_zero (by omega)
    subst hn
    have hsame := flushFull_short pool hb (by decide)
    exact ⟨_,[],[],topUp_empty hb bs,by rw [hsame]; exact .nothing hb,.inl rfl,rfl⟩

theorem pushData_sent (pool : Pool) {b : BlockBuffer} {block : Bytes} (hb : b.Holds block)
    (bs : Bytes) :
    ∃ b', b.pushData pool bs = some b' ∧
      b.Sent (cutCall block (.data bs)).1 (cutCall block (.data bs)).2 b' := by
  obtain ⟨r,blocks,block',htop,hs,hloop,hcut⟩ := pushData_loop pool hb bs
  obtain ⟨b',hrest,hs'⟩ := pushRest_sent hs.holds hloop
  refine ⟨b',?_,by rw [hcut]; exact hs.trans hs'⟩
  rw [pushData,htop]
  exact hrest

/-- A call whose block ends within the buffer copies only into the buffer. -/
theorem push_sent (pool : Pool) {b : BlockBuffer} {block : Bytes} (hb : b.Holds block)
    (op : PushOp) (h : (cutCall block op).2.length ≤ maxBlocksize) :
    ∃ b', b.push pool op = some b' ∧ b.Sent (cutCall block op).1 (cutCall block op).2 b' := by
  cases op with
  | data bs => exact pushData_sent pool hb bs
  | podContiguous bs =>
    rw [cutCall,List.length_append] at h
    exact append_sent hb bs h
  | pod bs =>
    rw [cutCall] at h ⊢
    by_cases hm : block.length > minBlocksize
    · have hp : block.length > 0 := Nat.lt_of_le_of_lt (Nat.zero_le _) hm
      have hflush := flush_sent pool hb
      rw [lastBlock,if_pos hp] at hflush
      rw [if_pos hm] at h ⊢
      obtain ⟨b',happend,hs⟩ := append_sent hflush.holds bs (by simpa using h)
      refine ⟨b',?_,hflush.trans hs⟩
      rw [push,pushPod,hb.size,if_pos hm]
      exact happend
    · rw [if_neg hm,List.length_append] at h
      rw [if_neg hm,push,pushPod,hb.size,if_neg hm]
      exact append_sent hb bs h

theorem pushAll_sent (pool : Pool) {b : BlockBuffer} {block : Bytes} (hb : b.Holds block)
    {ops : List PushOp} (h : InBounds block ops) :
    ∃ b', b.pushAll pool ops = some b' ∧
      b.Sent (cutCalls block ops).1 (cutCalls block ops).2 b' := by
  induction ops generalizing b block with
  | nil => exact ⟨b,rfl,.nothing hb⟩
  | cons op ops ih =>
    obtain ⟨b₁,h₁,hs₁⟩ := push_sent pool hb op h.1
    obtain ⟨b',h',hs⟩ := ih hs₁.holds h.2
    refine ⟨b',?_,hs₁.trans hs⟩
    rw [pushAll,h₁]
    exact h'

end BlockBuffer

theorem blocksOf_extends {block : Bytes} (h : block ≠ []) (ops : List PushOp) :
    ∃ back rest, blocksOf block ops = (block ++ back) :: rest := by
  induction ops generalizing block with
  | nil =>
    have hp : block.length > 0 := List.length_pos_iff.mpr h
    exact ⟨[],[],by rw [blocksOf_nil,lastBlock,if_pos hp,List.append_nil]⟩
  | cons op ops ih =>
    have hmore : ∀ bs, ∃ back rest, blocksOf (block ++ bs) ops = (block ++ back) :: rest := by
      intro bs
      have hne : block ++ bs ≠ [] := by simp [h]
      obtain ⟨back,rest,hb⟩ := ih hne
      exact ⟨bs ++ back,rest,by rw [hb,List.append_assoc]⟩
    have hdone : ∀ rest, ∃ back rest', block :: rest = (block ++ back) :: rest' :=
      fun rest => ⟨[],rest,by rw [List.append_nil]⟩
    rw [blocksOf_cons]
    cases op with
    | podContiguous bs => exact hmore bs
    | pod bs =>
      rw [cutCall]
      split
      · exact hdone _
      · exact hmore bs
    | data bs =>
      rw [cutCall]
      split
      · exact hdone _
      · by_cases hlong : maxBlocksize ≤ (block ++ bs).length
        · rw [Chunks.cut_long (by decide) hlong,List.take_append,
            List.take_of_length_le (by omega)]
          exact ⟨_,_,rfl⟩
        · rw [Chunks.cut_short (by omega)]
          exact hmore bs

def Unsplit (blocks : List Bytes) (before stretch : Bytes) : Prop :=
  ∃ done front back rest, blocks = done ++ (front ++ stretch ++ back) :: rest ∧
    done.flatten ++ front = before

theorem cutCalls_contiguous (block : Bytes) (tail : List Bytes) :
    cutCalls block (tail.map .podContiguous) = ([],block ++ tail.flatten) := by
  induction tail generalizing block with
  | nil => simp [cutCalls]
  | cons t tail ih => simp [cutCalls,cutCall,ih]

theorem pushedBytes_contiguous (tail : List Bytes) :
    pushedBytes (tail.map .podContiguous) = tail.flatten := by
  induction tail with
  | nil => rfl
  | cons t tail ih => rw [List.map_cons,pushedBytes_cons,ih]; rfl

theorem Header.length_le {r : WriteRun} (h : Header r) : (pushedBytes r.pushed).length ≤ 14 := by
  obtain ⟨b,tail,rfl,hl⟩ := h.opens
  rw [pushedBytes_cons,pushedBytes_contiguous,List.length_append]
  simp only [PushOp.bytes,List.length_singleton]
  omega

theorem Header.cut {r : WriteRun} (h : Header r) (block : Bytes) :
    ∃ done front, cutCalls block r.pushed = (done,front ++ pushedBytes r.pushed) ∧
      done.flatten ++ front = block := by
  obtain ⟨b,tail,rfl,_⟩ := h.opens
  simp only [cutCalls,pushedBytes_cons,pushedBytes_contiguous,cutCalls_contiguous,
    cutCall,PushOp.bytes]
  by_cases hm : block.length > minBlocksize
  · rw [if_pos hm]
    exact ⟨[block],[],rfl,by simp⟩
  · rw [if_neg hm]
    exact ⟨[],block,by simp,by simp⟩

theorem Header.ne_nil {r : WriteRun} (h : Header r) : pushedBytes r.pushed ≠ [] := by
  obtain ⟨b,tail,rfl,_⟩ := h.opens
  simp [PushOp.bytes]

theorem Header.unsplit {r : WriteRun} (h : Header r) (before after : List PushOp) :
    Unsplit (blocksOf [] (before ++ (r.pushed ++ after))) (pushedBytes before)
      (pushedBytes r.pushed) := by
  obtain ⟨done,front,hcut,hblock⟩ := h.cut (cutCalls [] before).2
  have hne : front ++ pushedBytes r.pushed ≠ [] := by simp [h.ne_nil]
  obtain ⟨back,rest,hext⟩ := blocksOf_extends hne after
  refine ⟨(cutCalls [] before).1 ++ done,front,back,rest,?_,?_⟩
  · rw [blocksOf] at hext ⊢
    rw [cutCalls_append,cutCalls_append,hcut]
    simp only
    rw [List.append_assoc,List.append_assoc,List.append_assoc,hext]
  · rw [List.flatten_append,List.append_assoc,hblock,cutCalls_flatten,List.nil_append]

theorem cutCalls_complete {block : Bytes} {ops : List PushOp}
    (hb : block.length ≤ maxBlocksize) (h : InBounds block ops) :
    ∀ b ∈ (cutCalls block ops).1, minBlocksize < b.length ∧ b.length ≤ maxBlocksize := by
  induction ops generalizing block with
  | nil => intro b hm; cases hm
  | cons op ops ih =>
    intro b hm
    rcases List.mem_append.mp hm with hm | hm
    · exact cutCall_complete hb op b hm
    · exact ih h.1 h.2 b hm

theorem InBounds.take {block : Bytes} {ops : List PushOp} (h : InBounds block ops) (k : Nat) :
    InBounds block (ops.take k) := by
  induction ops generalizing block k with
  | nil => simpa using h
  | cons op ops ih =>
    cases k with
    | zero => trivial
    | succ k => exact ⟨h.1,ih h.2 k⟩

theorem Producer.pushAll_sent (directMem : Bool) (ops : List PushOp) (p : Producer) :
    p.Sent (cutCalls p.block ops).1 (cutCalls p.block ops).2
      (ops.foldl (Producer.push directMem) p) := by
  induction ops generalizing p with
  | nil => exact .nothing p p.block
  | cons op ops ih =>
    have hone := p.push_sent directMem op
    have htail := ih (p.push directMem op)
    rw [hone.block] at htail
    exact hone.trans htail

/-- What holds of the buffer once these calls are made, in either writer: `finish()` would
flush it and be done. -/
structure BlockBuffer.After (pool : Pool) (b : BlockBuffer) (ops : List PushOp) : Prop where
  room : b.currentBlocksize ≤ maxBlocksize
  contents : b.emitted.flatten ++ b.current = pushedBytes ops
  sizes : ∀ e ∈ (b.flush pool).emitted, 0 < e.length ∧ e.length ≤ maxBlocksize
  large : ∀ e ∈ b.emitted ++ (b.flush pool).emitted.dropLast, minBlocksize < e.length
  singleThreaded : ∀ cp, ({} : BlockWriter).pushAll cp ops =
    ({} : BlockWriter).sent cp b.emitted b.current
  multithreaded : ∀ directMem, ({} : Producer).Sent b.emitted b.current
    (ops.foldl (Producer.push directMem) {})

theorem BlockBuffer.Sent.finished (pool : Pool) {memory : BlockMemory} {b : BlockBuffer}
    {ops : List PushOp}
    (hs : ({ memory } : BlockBuffer).Sent (cutCalls [] ops).1 (cutCalls [] ops).2 b) :
    b.emitted = (cutCalls [] ops).1 ∧ (b.flush pool).emitted = blocksOf [] ops := by
  have hemitted : b.emitted = (cutCalls [] ops).1 := hs.emitted
  refine ⟨hemitted,?_⟩
  rw [(flush_sent pool hs.holds).emitted,hemitted,blocksOf]

theorem BlockBuffer.Sent.after {pool : Pool} {memory : BlockMemory} {b : BlockBuffer}
    {ops : List PushOp} (h : InBounds [] ops)
    (hs : ({ memory } : BlockBuffer).Sent (cutCalls [] ops).1 (cutCalls [] ops).2 b) :
    b.After pool ops := by
  obtain ⟨hemitted,hfinished⟩ := hs.finished pool
  have hlarge := cutCalls_complete (Nat.zero_le _) h
  constructor
  · rw [hs.holds.size]
    exact h.rest_le (Nat.zero_le _)
  · rw [hemitted,hs.holds.current,cutCalls_flatten,List.nil_append]
  · rw [hfinished]
    exact blocksOf_sizes (Nat.zero_le _) h
  · rw [hemitted,hfinished,blocksOf,lastBlock]
    intro e hm
    rcases List.mem_append.mp hm with hm | hm
    · exact (hlarge e hm).1
    · split at hm
      · rw [List.dropLast_concat] at hm
        exact (hlarge e hm).1
      · rw [List.append_nil] at hm
        exact (hlarge e (List.dropLast_subset _ hm)).1
  · intro cp
    rw [hemitted,hs.holds.current]
    exact BlockWriter.pushAll_eq cp {} ops
  · intro directMem
    rw [hemitted,hs.holds.current]
    exact Producer.pushAll_sent directMem ops {}

/-- The writer's block buffer during any write: no copy runs past it, blocks have their
sizes and nothing is lost between them, and no header is split. -/
theorem block_buffer_discipline (pool : Pool) (memory : BlockMemory) (maxDepth : Nat)
    (v : Value) :
    ∃ segments : List (List PushOp), (streamWrite maxDepth v).pushed = segments.flatten ∧
      (∀ s ∈ segments, Segment s) ∧
      ∀ k, ∃ b, ({ memory } : BlockBuffer).pushAll pool
          ((streamWrite maxDepth v).pushed.take k) = some b ∧
        b.After pool ((streamWrite maxDepth v).pushed.take k) ∧
        ∀ before r after, segments = before ++ r.pushed :: after → Header r →
          before.flatten.length+r.pushed.length ≤ k →
          (pushedBytes r.pushed).length ≤ 14 ∧
          Unsplit (b.flush pool).emitted (pushedBytes before.flatten) (pushedBytes r.pushed) := by
  obtain ⟨segments,hpushed,hsegments⟩ := streamWrite_segmented maxDepth v
  refine ⟨segments,hpushed,hsegments,fun k => ?_⟩
  have hbounds := (streamWrite_inBounds maxDepth v).take k
  obtain ⟨b,hpush,hs⟩ := BlockBuffer.pushAll_sent pool
    (b := { memory }) (BlockBuffer.Holds.empty rfl) hbounds
  refine ⟨b,hpush,hs.after hbounds,fun before r after hsplit hr hk => ⟨hr.length_le,?_⟩⟩
  have hcalls : (streamWrite maxDepth v).pushed.take k = before.flatten ++
      (r.pushed ++ after.flatten.take (k - (before.flatten.length+r.pushed.length))) := by
    rw [hpushed,hsplit,List.flatten_append,List.flatten_cons,List.take_append,
      List.take_append,List.take_of_length_le (by omega),
      List.take_of_length_le (by omega),Nat.sub_add_eq]
  rw [(hs.finished pool).2,hcalls]
  exact hr.unsplit _ _

end QData
