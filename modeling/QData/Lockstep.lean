import QData.Cursor
import QData.BlockWriter
/-! Reader and writer cut a stream at the same places. What a cursor returns is always the
next part of its blocks, and on the blocks a writer cut it returns what was pushed. -/
set_option autoImplicit false

namespace QData
open Words Requests

theorem writeAt_end (out bs : Bytes) : writeAt out out.length bs = out ++ bs := by
  simp [writeAt]

/-- The 32-bit counter of `get_data` reaches the payload's length before it wraps. -/
def Narrow (len acc : Nat) : Prop := acc < 2 ^ 32 ∧ len < 2 ^ 32+acc % maxBlocksize

theorem Narrow.step {len acc : Nat} (h : Narrow len acc) (hl : len - acc ≥ maxBlocksize) :
    (acc+maxBlocksize) % 2 ^ 32 = acc+maxBlocksize ∧ Narrow len (acc+maxBlocksize) := by
  obtain ⟨ha,hn⟩ := h
  simp only [Narrow,maxBlocksize] at *
  omega

theorem getBlocks_wide {σ : Type} {S : BlockSource σ} (len : Nat) (out : Bytes) (acc : Nat)
    (source : σ) (ha : acc < 2 ^ 32) (hw : 2 ^ 32+acc % maxBlocksize ≤ len) :
    ∃ e, Cursor.getBlocks S len out acc source = .error e := by
  induction out, acc, source using Cursor.getBlocks.induct S len with
  | case1 out acc source hlen e hf => exact ⟨e,Cursor.getBlocks_error hlen hf⟩
  | case2 out acc source hlen b source' hf hb =>
    exact ⟨corrupted,by rw [Cursor.getBlocks_block hlen hf,if_pos hb]⟩
  | case3 out acc source hlen b source' hf hb ih =>
    obtain ⟨e,he⟩ := ih (Nat.mod_lt _ (by decide)) (by simp only [maxBlocksize] at *; omega)
    exact ⟨e,by rw [Cursor.getBlocks_block hlen hf,if_neg hb,he]⟩
  | case4 out acc source hlen =>
    simp only [maxBlocksize] at *
    omega

def Feed.bytes (f : Feed) : Bytes := (f.blocks.map Subtype.val).flatten

theorem feedSource_next {f f' : Feed} {b : Block} (h : feedSource.fetch f = .ok (b,f')) :
    f.blocks = b :: f'.blocks ∧ f'.stop = f.stop := by
  obtain ⟨blocks,stop⟩ := f
  cases blocks with
  | nil => cases h
  | cons x xs => cases h; exact ⟨rfl,rfl⟩

theorem feedSource_bytes {f f' : Feed} {b : Block} (h : feedSource.fetch f = .ok (b,f')) :
    f.bytes = b.1 ++ f'.bytes := by
  rw [Feed.bytes,(feedSource_next h).1,List.map_cons,List.flatten_cons,Feed.bytes]

theorem getBlocks_sound {len : Nat} (out : Bytes) (acc : Nat) (f : Feed)
    (hacc : acc = out.length) (hle : acc ≤ len) (hn : Narrow len acc) {out' : Bytes}
    {acc' : Nat} {f' : Feed}
    (h : Cursor.getBlocks feedSource len out acc f = .ok (out',acc',f')) :
    acc' = out'.length ∧ acc' ≤ len ∧ len - acc' < maxBlocksize ∧
      out' ++ f'.bytes = out ++ f.bytes := by
  induction out, acc, f using Cursor.getBlocks.induct feedSource len with
  | case1 out acc f hlen e hf => rw [Cursor.getBlocks_error hlen hf] at h; cases h
  | case2 out acc f hlen b f₁ hf hb =>
    rw [Cursor.getBlocks_block hlen hf,if_pos hb] at h
    cases h
  | case3 out acc f hlen b f₁ hf hb ih =>
    rw [Cursor.getBlocks_block hlen hf,if_neg hb] at h
    have hsize : b.1.length = maxBlocksize := Decidable.not_not.mp hb
    obtain ⟨hmod,hn'⟩ := hn.step hlen
    rw [hmod] at ih h
    subst hacc
    rw [writeAt_end] at ih h
    obtain ⟨h₁,h₂,h₃,h₄⟩ := ih (by rw [List.length_append,hsize]) (by omega) hn' h
    refine ⟨h₁,h₂,h₃,?_⟩
    rw [h₄,feedSource_bytes hf,List.append_assoc]
  | case4 out acc f hlen =>
    rw [Cursor.getBlocks_done hlen] at h
    cases h
    exact ⟨hacc,hle,by omega,rfl⟩

def Cursor.bytes (c : Cursor Feed) : Bytes := c.pending ++ c.source.bytes

def Ahead (c : Cursor Feed) (s : Bytes) : Prop :=
  s = c.bytes ∧ c.pending.length ≤ maxBlocksize

theorem take_ahead {n : Nat} {c : Cursor Feed} (hp : c.pending.length ≤ maxBlocksize)
    (op : GetOp) (hop : op.size = n) :
    Refines Ahead (Cursor.take n c) (channel op c.bytes) := by
  intro bs c' h
  rw [Cursor.take] at h
  split at h
  · cases h
  · next hs =>
    cases h
    refine ⟨c.pending.drop n ++ c.source.bytes,?_,rfl,by simp; omega⟩
    have hsplit : c.bytes = c.pending.take n ++ (c.pending.drop n ++ c.source.bytes) := by
      rw [Cursor.bytes,← List.append_assoc,List.take_append_drop]
    rw [hsplit]
    exact channel_append op _ (by rw [hop]; simp; omega) _

theorem getTail_ahead {len : Nat} (out : Bytes) (f : Feed) (hle : out.length ≤ len)
    {bs : Bytes} {c' : Cursor Feed}
    (h : Cursor.getTail feedSource len out out.length f = .ok (bs,c')) :
    bs.length = len ∧ out ++ f.bytes = bs ++ c'.bytes ∧ c'.pending.length ≤ maxBlocksize := by
  rw [Cursor.getTail] at h
  by_cases ht : len - out.length > 0
  · rw [if_pos ht] at h
    cases hf : feedSource.fetch f with
    | error e => simp [hf] at h
    | ok r =>
      obtain ⟨b,f'⟩ := r
      simp only [hf] at h
      split at h
      · cases h
      · next hb =>
        cases h
        rw [writeAt_end]
        refine ⟨by simp; omega,?_,?_⟩
        · rw [feedSource_bytes hf,Cursor.bytes]
          simp only [List.append_assoc]
          rw [← List.append_assoc (b.1.take _),List.take_append_drop]
        · have := b.2
          simp only [List.length_drop]
          omega
  · rw [if_neg ht] at h
    cases h
    exact ⟨by omega,by simp [Cursor.bytes],by simp⟩

/-- Whatever a cursor returns, an ideal channel holding the same bytes returns. -/
theorem cursor_channel (op : GetOp) (c : Cursor Feed) (s : Bytes) (h : Ahead c s) :
    Refines Ahead (cursor feedSource op c) (channel op s) := by
  obtain ⟨rfl,hp⟩ := h
  cases op with
  | podContiguous size => exact take_ahead hp _ rfl
  | pod size =>
    intro bs c' h
    simp only [cursor,Cursor.getPod] at h
    by_cases hnil : c.pending = []
    · rw [if_pos hnil] at h
      cases hf : feedSource.fetch c.source with
      | error e => simp [hf] at h
      | ok r =>
        obtain ⟨b,f'⟩ := r
        simp only [hf] at h
        have hb : c.bytes = (Cursor.mk b.1 f').bytes := by
          rw [Cursor.bytes,hnil,List.nil_append,feedSource_bytes hf]
          rfl
        rw [hb]
        exact take_ahead b.2 (.pod size) rfl bs c' h
    · rw [if_neg hnil] at h
      exact take_ahead hp (.pod size) rfl bs c' h
  | data len =>
    intro bs c' h
    simp only [cursor,Cursor.getData] at h
    by_cases hle : len ≤ c.pending.length
    · rw [if_pos hle] at h
      refine take_ahead (n := len) hp (.data len) rfl bs c' ?_
      rw [Cursor.take,if_neg (by omega)]
      exact h
    rw [if_neg hle,Cursor.getRest] at h
    cases hg : Cursor.getBlocks feedSource len c.pending c.pending.length c.source with
    | error e => simp [hg] at h
    | ok r =>
      obtain ⟨out,acc,f⟩ := r
      simp only [hg] at h
      have hacc : c.pending.length < 2 ^ 32 := by simp only [maxBlocksize] at hp; omega
      have hnarrow : Narrow len c.pending.length := by
        refine ⟨hacc,?_⟩
        by_contra hw
        obtain ⟨e,he⟩ := getBlocks_wide (S := feedSource) len c.pending
          c.pending.length c.source hacc (Nat.le_of_not_lt hw)
        rw [he] at hg
        cases hg
      obtain ⟨rfl,h₂,_,h₄⟩ := getBlocks_sound _ _ _ rfl (by omega) hnarrow hg
      obtain ⟨h₅,h₆,h₇⟩ := getTail_ahead out f h₂ h
      refine ⟨c'.bytes,?_,rfl,h₇⟩
      rw [Cursor.bytes,← h₄,h₆]
      exact channel_append (.data len) bs h₅.symm _

theorem cursor_unrolled_channel {σ : Type} {S : BlockSource σ} {op : GetOp} {c c' : Cursor σ}
    {bs : Bytes} (hp : c.pending.length ≤ maxBlocksize) (h : cursor S op c = .ok (bs,c')) :
    channel op (c.unroll S).bytes = .ok (bs,(c'.unroll S).bytes) := by
  have hfeed := cursor_unrolled (S := S) op c (c.unroll S) rfl
  rw [h] at hfeed
  obtain ⟨f,hfeed,rfl⟩ := hfeed.ok_left
  obtain ⟨t,hchannel,ht,-⟩ := cursor_channel op _ _ ⟨rfl,hp⟩ bs _ hfeed
  rw [hchannel,ht]

/-- A program that completes on blocks completes on their bytes, with the same value, and
leaves the bytes the blocks have left. -/
theorem readFeed_channel {α : Type} {p : Reader α} {f : Feed} {a : α} {c : Cursor Feed}
    (h : readFeed p f = .ok (a,c)) : p.run channel f.bytes = .ok (a,c.bytes) := by
  obtain ⟨s,hs,hc,_⟩ := run_refines (R := Ahead) (fun op c s h => cursor_channel op c s h) p
    (s := Cursor.start f) (t := f.bytes) ⟨by simp [Cursor.bytes,Cursor.start],by simp [Cursor.start]⟩
    a c h
  rw [hs,hc]

def Feed.contents (f : Feed) : List Bytes := f.blocks.map Subtype.val

theorem feedSource_contents {f : Feed} {x : Bytes} {xs : List Bytes}
    (h : f.contents = x :: xs) :
    ∃ b f', feedSource.fetch f = .ok (b,f') ∧ b.1 = x ∧ f'.contents = xs := by
  obtain ⟨blocks,stop⟩ := f
  cases blocks with
  | nil => cases h
  | cons b bs =>
    simp only [Feed.contents,List.map_cons,List.cons.injEq] at h
    exact ⟨b,⟨bs,stop⟩,rfl,h.1,h.2⟩

/-- Where a reader stands that has read exactly what was pushed, when the writer holds
`block` and `blocks` are still to be completed with it: inside the block the writer is
filling, or before a block of which nothing was pushed yet. -/
def Positioned (block : Bytes) (blocks : List Bytes) (c : Cursor Feed) : Prop :=
  (block ++ c.pending) :: c.source.contents = blocks ∨
    (block = [] ∧ c.pending = [] ∧ c.source.contents = blocks)

theorem blocksOf_head {block : Bytes} (h : block ≠ []) (ops : List PushOp) :
    ∃ t rest, blocksOf block ops = (block ++ t) :: rest := by
  induction ops generalizing block with
  | nil =>
    have hp : block.length > 0 := List.length_pos_iff.mpr h
    exact ⟨[],[],by simp [blocksOf,cutCalls,lastBlock,hp]⟩
  | cons op ops ih =>
    have hcons : blocksOf block (op :: ops) =
        (cutCall block op).1 ++ blocksOf (cutCall block op).2 ops := by
      simp [blocksOf,cutCalls]
    have happend : ∀ bs, cutCall block op = ([],block ++ bs) →
        ∃ t rest, blocksOf block (op :: ops) = (block ++ t) :: rest := by
      intro bs hb
      obtain ⟨t,rest,ht⟩ := @ih (block ++ bs) (by simp [h])
      exact ⟨bs ++ t,rest,by rw [hcons,hb]; simpa using ht⟩
    cases op with
    | podContiguous bs => exact happend bs rfl
    | pod bs =>
      by_cases hm : block.length > minBlocksize
      · refine ⟨[],blocksOf bs ops,?_⟩
        rw [hcons,cutCall,if_pos hm]
        simp
      · exact happend bs (by rw [cutCall,if_neg hm])
    | data bs =>
      by_cases hm : block.length ≥ maxBlocksize
      · refine ⟨[],(Chunks.cut maxBlocksize bs).1 ++ blocksOf (Chunks.cut maxBlocksize bs).2 ops,?_⟩
        rw [hcons,cutCall,if_pos hm]
        simp
      by_cases hl : (block ++ bs).length < maxBlocksize
      · exact happend bs (by rw [cutCall,if_neg hm,Chunks.cut_short hl])
      · refine ⟨bs.take (maxBlocksize - block.length),
          (Chunks.cut maxBlocksize ((block ++ bs).drop maxBlocksize)).1 ++
            blocksOf (Chunks.cut maxBlocksize ((block ++ bs).drop maxBlocksize)).2 ops,?_⟩
        rw [hcons,cutCall,if_neg hm,Chunks.cut_long (by decide) (by omega),List.take_append,
          List.take_of_length_le (by omega)]
        rfl

theorem blocksOf_nil (block : Bytes) : blocksOf block [] = lastBlock block := rfl

theorem blocksOf_cons (block : Bytes) (op : PushOp) (ops : List PushOp) :
    blocksOf block (op :: ops) = (cutCall block op).1 ++ blocksOf (cutCall block op).2 ops := by
  simp [blocksOf,cutCalls]

theorem Positioned.inside {block bs : Bytes} {ops : List PushOp} {c : Cursor Feed}
    (hb : block ++ bs ≠ [])
    (h : (block ++ c.pending) :: c.source.contents = blocksOf (block ++ bs) ops) :
    c.pending.take bs.length = bs ∧ bs.length ≤ c.pending.length ∧
      Positioned (block ++ bs) (blocksOf (block ++ bs) ops)
        { c with pending := c.pending.drop bs.length } := by
  obtain ⟨t,rest,ht⟩ := blocksOf_head hb ops
  rw [ht] at h ⊢
  simp only [List.append_assoc,List.cons.injEq,List.append_cancel_left_eq] at h
  obtain ⟨hp,hr⟩ := h
  rw [hp]
  refine ⟨by simp,by simp,.inl ?_⟩
  simp [hr]

theorem Positioned.ahead {bs : Bytes} {ops : List PushOp} {f : Feed} (hb : bs ≠ [])
    (h : f.contents = blocksOf bs ops) :
    ∃ b f', feedSource.fetch f = .ok (b,f') ∧ b.1.take bs.length = bs ∧
      bs.length ≤ b.1.length ∧
      Positioned bs (blocksOf bs ops) ⟨b.1.drop bs.length,f'⟩ := by
  obtain ⟨t,rest,ht⟩ := blocksOf_head hb ops
  rw [ht] at h ⊢
  obtain ⟨b,f',hf,hv,hr⟩ := feedSource_contents h
  refine ⟨b,f',hf,by simp [hv],by simp [hv],.inl ?_⟩
  simp [hv,hr]

theorem getBlocks_pieces (len : Nat) (pieces : List Bytes)
    (hsize : ∀ p ∈ pieces, p.length = maxBlocksize) {more : List Bytes} :
    ∀ (out : Bytes) (f : Feed), f.contents = pieces ++ more →
      Narrow len out.length → out.length+pieces.flatten.length ≤ len →
      len - (out.length+pieces.flatten.length) < maxBlocksize →
      ∃ f', Cursor.getBlocks feedSource len out out.length f =
          .ok (out ++ pieces.flatten,(out ++ pieces.flatten).length,f') ∧
        f'.contents = more := by
  induction pieces with
  | nil =>
    intro out f hf _ _ hend
    refine ⟨f,?_,hf⟩
    rw [Cursor.getBlocks_done (by simpa using hend)]
    simp
  | cons p pieces ih =>
    intro out f hf hn hle hend
    obtain ⟨b,f₁,hfetch,hb,hf₁⟩ := feedSource_contents hf
    have hp := hsize p List.mem_cons_self
    simp only [List.flatten_cons,List.length_append] at hle hend
    have hlen : len - out.length ≥ maxBlocksize := by omega
    obtain ⟨hmod,hn'⟩ := hn.step hlen
    have hout : (out ++ p).length = out.length+maxBlocksize := by rw [List.length_append,hp]
    obtain ⟨f',hg,hf'⟩ := ih (fun q hq => hsize q (List.mem_cons_of_mem _ hq)) (out ++ p) f₁ hf₁
      (by rw [hout]; exact hn') (by rw [hout]; omega) (by rw [hout]; omega)
    refine ⟨f',?_,hf'⟩
    rw [Cursor.getBlocks_block hlen hfetch,if_neg (by rw [hb,hp]; simp),hb,hmod,writeAt_end,
      ← hout,hg]
    simp

theorem getRest_cut (len : Nat) (out data : Bytes) (f : Feed) (ops : List PushOp)
    (hf : f.contents = (Chunks.cut maxBlocksize data).1 ++
      blocksOf (Chunks.cut maxBlocksize data).2 ops)
    (hlen : len = out.length+data.length) (hn : Narrow len out.length) :
    ∃ c', Cursor.getRest feedSource len out out.length f = .ok (out ++ data,c') ∧
      Positioned (Chunks.cut maxBlocksize data).2
        (blocksOf (Chunks.cut maxBlocksize data).2 ops) c' := by
  have hcut := Chunks.cut_flatten maxBlocksize data
  have hrest := Chunks.cut_rest_lt (m := maxBlocksize) (by decide) data
  have hpieces := Chunks.cut_length (m := maxBlocksize) data
  generalize (Chunks.cut maxBlocksize data).1 = pieces at *
  generalize (Chunks.cut maxBlocksize data).2 = rest at *
  have hdata : data.length = pieces.flatten.length+rest.length := by
    rw [← hcut,List.length_append]
  obtain ⟨f',hg,hf'⟩ := getBlocks_pieces len pieces hpieces out f hf hn (by omega)
    (by omega)
  have hmissing : len - (out ++ pieces.flatten).length = rest.length := by
    rw [List.length_append]
    omega
  by_cases hr : rest = []
  · subst hr
    refine ⟨⟨[],f'⟩,?_,.inr ⟨rfl,rfl,hf'⟩⟩
    rw [Cursor.getRest,hg]
    simp only
    rw [Cursor.getTail,if_neg (by simp only [hmissing]; simp),← hcut,List.append_nil]
  · obtain ⟨b,f₁,hfetch,htake,hle,hpos⟩ := Positioned.ahead hr hf'
    refine ⟨⟨b.1.drop rest.length,f₁⟩,?_,hpos⟩
    rw [Cursor.getRest,hg]
    have hp : rest.length > 0 := List.length_pos_iff.mpr hr
    simp only [Cursor.getTail,hmissing,if_pos hp,hfetch]
    rw [if_neg (by omega),writeAt_end,htake,← hcut,List.append_assoc]

def GetOp.matching : PushOp → GetOp
  | .pod bs => .pod bs.length
  | .podContiguous bs => .podContiguous bs.length
  | .data bs => .data bs.length

/-- The reader answers a call with what was pushed and stands where the writer goes on. -/
def Follows (block : Bytes) (op : PushOp) (ops : List PushOp) (c : Cursor Feed) : Prop :=
  ∃ c', cursor feedSource (.matching op) c = .ok (op.bytes,c') ∧
    Positioned (cutCall block op).2 (blocksOf (cutCall block op).2 ops) c'

theorem take_follows {block bs : Bytes} {ops : List PushOp} {c : Cursor Feed}
    (hb : block ++ bs ≠ [])
    (h : (block ++ c.pending) :: c.source.contents = blocksOf (block ++ bs) ops) :
    ∃ c', Cursor.take bs.length c = .ok (bs,c') ∧
      Positioned (block ++ bs) (blocksOf (block ++ bs) ops) c' := by
  obtain ⟨htake,hle,hpos⟩ := Positioned.inside hb h
  exact ⟨_,by rw [Cursor.take,if_neg (by omega),htake],hpos⟩

theorem Positioned.podContiguous {block bs : Bytes} {ops : List PushOp} {c : Cursor Feed}
    (hb : block ≠ []) (h : Positioned block (blocksOf block (.podContiguous bs :: ops)) c) :
    Follows block (.podContiguous bs) ops c := by
  rcases h with h | ⟨hnil,_⟩
  · exact take_follows (by simp [hb]) h
  · exact absurd hnil hb

theorem Positioned.pod {block bs : Bytes} {ops : List PushOp} {c : Cursor Feed}
    (hb : bs ≠ []) (h : Positioned block (blocksOf block (.pod bs :: ops)) c) :
    Follows block (.pod bs) ops c := by
  -- a fetch is due exactly when nothing of the current block is unread
  have hfetch : c.pending = [] → c.source.contents = blocksOf bs ops →
      ∃ c', cursor feedSource (.pod bs.length) c = .ok (bs,c') ∧
        Positioned bs (blocksOf bs ops) c' := by
    intro hp hc
    obtain ⟨b,f',hf,htake,hle,hpos⟩ := Positioned.ahead hb hc
    refine ⟨_,?_,hpos⟩
    simp only [cursor,Cursor.getPod,if_pos hp,hf]
    rw [Cursor.take,if_neg (by simp only; omega)]
    simp only [htake]
  rw [Follows,cutCall]
  rw [blocksOf_cons,cutCall] at h
  by_cases hm : block.length > minBlocksize
  · rw [if_pos hm] at h ⊢
    rcases h with h | ⟨hnil,_⟩
    · simp only [List.singleton_append,List.cons.injEq] at h
      exact hfetch (by simpa using h.1) h.2
    · rw [hnil] at hm
      exact absurd hm (by decide)
  · rw [if_neg hm] at h ⊢
    rcases h with h | ⟨rfl,hp,hc⟩
    · obtain ⟨htake,hle,_⟩ := Positioned.inside (by simp [hb]) h
      have hp : c.pending ≠ [] := by
        intro hp
        rw [hp] at hle
        exact hb (List.eq_nil_of_length_eq_zero (by simpa using hle))
      obtain ⟨c',hc',hpos⟩ := take_follows (by simp [hb]) h
      exact ⟨c',by simp only [cursor,GetOp.matching,Cursor.getPod,if_neg hp]; exact hc',hpos⟩
    · exact hfetch hp hc

/-- The condition under which the counter of `get_data` lasts for a payload that starts
behind `block` in a block. -/
def Countable (block : Bytes) (len : Nat) : Prop :=
  len < 2 ^ 32+(maxBlocksize - block.length) % maxBlocksize

theorem getData_fresh {bs : Bytes} {ops : List PushOp} {c : Cursor Feed}
    (hn : bs.length < 2 ^ 32) (hp : c.pending = [])
    (hc : c.source.contents = (Chunks.cut maxBlocksize bs).1 ++
      blocksOf (Chunks.cut maxBlocksize bs).2 ops) :
    ∃ c', Cursor.getData feedSource bs.length c = .ok (bs,c') ∧
      Positioned (Chunks.cut maxBlocksize bs).2
        (blocksOf (Chunks.cut maxBlocksize bs).2 ops) c' := by
  by_cases hb : bs = []
  · subst hb
    rw [Chunks.cut_short (by decide)] at hc ⊢
    exact ⟨{ c with pending := c.pending.drop 0 },rfl,.inr ⟨rfl,by simpa using hp,hc⟩⟩
  · have hlen : bs.length > 0 := List.length_pos_iff.mpr hb
    obtain ⟨c',hr,hpos⟩ := getRest_cut bs.length [] bs c.source ops hc (by simp)
      ⟨by decide,by simpa using hn⟩
    refine ⟨c',?_,hpos⟩
    rw [Cursor.getData,if_neg (by rw [hp]; simpa using hb),hp]
    exact hr

theorem positioned_long {block bs : Bytes} {ops : List PushOp} {c : Cursor Feed}
    (hb : block.length < maxBlocksize) (hlong : maxBlocksize ≤ (block ++ bs).length)
    (h : (block ++ c.pending) :: c.source.contents =
      (Chunks.cut maxBlocksize (block ++ bs)).1 ++
        blocksOf (Chunks.cut maxBlocksize (block ++ bs)).2 ops) :
    c.pending = bs.take (maxBlocksize - block.length) ∧
      (Chunks.cut maxBlocksize (block ++ bs)).2 =
        (Chunks.cut maxBlocksize (bs.drop (maxBlocksize - block.length))).2 ∧
      c.source.contents =
        (Chunks.cut maxBlocksize (bs.drop (maxBlocksize - block.length))).1 ++
          blocksOf (Chunks.cut maxBlocksize (bs.drop (maxBlocksize - block.length))).2 ops := by
  have htake : (block ++ bs).take maxBlocksize =
      block ++ bs.take (maxBlocksize - block.length) := by
    rw [List.take_append,List.take_of_length_le (by omega)]
  have hdrop : (block ++ bs).drop maxBlocksize = bs.drop (maxBlocksize - block.length) := by
    rw [List.drop_append,List.drop_of_length_le (by omega),List.nil_append]
  rw [Chunks.cut_long (by decide) hlong,htake,hdrop] at h ⊢
  simp only [List.cons_append,List.cons.injEq,List.append_cancel_left_eq] at h
  exact ⟨h.1,rfl,h.2⟩

theorem Positioned.data {block bs : Bytes} {ops : List PushOp} {c : Cursor Feed}
    (hb : block.length ≤ maxBlocksize) (hn : Countable block bs.length)
    (h : Positioned block (blocksOf block (.data bs :: ops)) c) :
    Follows block (.data bs) ops c := by
  rw [Follows,cutCall]
  rw [blocksOf_cons,cutCall] at h
  rw [Countable] at hn
  simp only [cursor,GetOp.matching,PushOp.bytes]
  by_cases hfull : block.length ≥ maxBlocksize
  · have hz : (maxBlocksize - block.length) % maxBlocksize = 0 := by
      rw [Nat.sub_eq_zero_of_le hfull]
      rfl
    rw [if_pos hfull] at h ⊢
    rcases h with h | ⟨hnil,_⟩
    · simp only [List.cons_append,List.cons.injEq] at h
      exact getData_fresh (by omega) (by simpa using h.1) h.2
    · rw [hnil] at hfull
      exact absurd hfull (by decide)
  rw [if_neg hfull] at h ⊢
  rcases h with h | ⟨rfl,hp,hc⟩
  · by_cases hshort : (block ++ bs).length < maxBlocksize
    · rw [Chunks.cut_short hshort] at h ⊢
      simp only [List.nil_append] at h ⊢
      by_cases hnil : block ++ bs = []
      · obtain ⟨rfl,rfl⟩ := List.append_eq_nil_iff.mp hnil
        exact ⟨_,rfl,.inl h⟩
      · obtain ⟨htake,hle,hpos⟩ := Positioned.inside hnil h
        exact ⟨_,by rw [Cursor.getData,if_pos hle,htake],hpos⟩
    · have hlong : maxBlocksize ≤ (block ++ bs).length := by omega
      obtain ⟨hp,hrest,hc⟩ := positioned_long (by omega) hlong h
      rw [hrest]
      rw [List.length_append] at hlong
      have hplen : c.pending.length = maxBlocksize - block.length := by
        rw [hp,List.length_take]
        omega
      by_cases hle : bs.length ≤ c.pending.length
      · have hall : bs.take (maxBlocksize - block.length) = bs :=
          List.take_of_length_le (by omega)
        have hnone : bs.drop (maxBlocksize - block.length) = [] :=
          List.drop_eq_nil_of_le (by omega)
        rw [hnone,Chunks.cut_short (l := []) (by decide)] at hc ⊢
        rw [hall] at hp
        refine ⟨{ c with pending := c.pending.drop bs.length },?_,.inr ⟨rfl,?_,hc⟩⟩
        · rw [Cursor.getData,if_pos hle,hp,List.take_length]
        · simp [hp]
      · have hpn : c.pending.length < 2 ^ 32 := by
          rw [hplen]
          simp only [maxBlocksize]
          omega
        obtain ⟨c',hr,hpos⟩ := getRest_cut bs.length c.pending
          (bs.drop (maxBlocksize - block.length)) c.source ops hc
          (by rw [List.length_drop]; omega) ⟨hpn,by rw [hplen]; exact hn⟩
        refine ⟨c',?_,hpos⟩
        rw [Cursor.getData,if_neg hle,hr,hp,List.take_append_drop]
  · simp only [List.nil_append] at hc ⊢
    refine getData_fresh ?_ hp hc
    simpa using hn

theorem Positioned.data_wide {block bs : Bytes} {ops : List PushOp} {c : Cursor Feed}
    (hb : block.length ≤ maxBlocksize) (hn : ¬ Countable block bs.length)
    (h : Positioned block (blocksOf block (.data bs :: ops)) c) :
    ∃ e, cursor feedSource (.data bs.length) c = .error e := by
  rw [Countable] at hn
  have hp : c.pending.length ≤ maxBlocksize ∧
      c.pending.length % maxBlocksize = (maxBlocksize - block.length) % maxBlocksize := by
    rcases h with h | ⟨rfl,hp,_⟩
    · rw [blocksOf_cons,cutCall] at h
      by_cases hfull : block.length ≥ maxBlocksize
      · rw [if_pos hfull] at h
        simp only [List.cons_append,List.cons.injEq] at h
        have hnil : c.pending = [] := by simpa using h.1
        rw [hnil,Nat.sub_eq_zero_of_le hfull]
        exact ⟨Nat.zero_le _,rfl⟩
      · rw [if_neg hfull] at h
        have hlong : maxBlocksize ≤ (block ++ bs).length := by
          rw [List.length_append]
          simp only [maxBlocksize] at *
          omega
        have hlen : c.pending.length = maxBlocksize - block.length := by
          rw [(positioned_long (by omega) hlong h).1,List.length_take]
          simp only [maxBlocksize] at *
          omega
        rw [hlen]
        exact ⟨Nat.sub_le _ _,rfl⟩
    · rw [hp]
      exact ⟨Nat.zero_le _,rfl⟩
  simp only [maxBlocksize] at hp hn
  obtain ⟨e,he⟩ := getBlocks_wide (S := feedSource) bs.length c.pending
    c.pending.length c.source (by omega) (by simp only [maxBlocksize]; omega)
  refine ⟨e,?_⟩
  simp only [cursor,Cursor.getData]
  rw [if_neg (by omega),Cursor.getRest,he]

end QData
