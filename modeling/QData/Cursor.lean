import QData.BlockReader
import QData.HeaderCodec
/-! A block reader seen from outside: the data of the current block that is still unread,
and the source. Both readers are this one, whatever they keep in their buffers. -/
set_option autoImplicit false

namespace QData
open Words Requests

structure Cursor (σ : Type) where
  pending : Bytes
  source : σ

namespace Cursor
variable {σ : Type} (S : BlockSource σ)

def start (source : σ) : Cursor σ := ⟨[],source⟩

def take (size : Nat) (c : Cursor σ) : Except (Halt ReadError) (Bytes × Cursor σ) :=
  if c.pending.length < size then .error corrupted
  else .ok (c.pending.take size,{ c with pending := c.pending.drop size })

def getPod (size : Nat) (c : Cursor σ) : Except (Halt ReadError) (Bytes × Cursor σ) :=
  if c.pending = [] then
    match S.fetch c.source with
    | .error e => .error e
    | .ok (b,source) => take size ⟨b.1,source⟩
  else take size c

def getBlocks (len : Nat) (out : Bytes) (acc : Nat) (source : σ) :
    Except (Halt ReadError) (Bytes × Nat × σ) :=
  if len - acc ≥ maxBlocksize then
    match h : S.fetch source with
    | .error e => .error e
    | .ok (b,source) =>
        if b.1.length ≠ maxBlocksize then .error corrupted
        else getBlocks len (writeAt out acc b.1) ((acc+maxBlocksize) % 2 ^ 32) source
  else .ok (out,acc,source)
termination_by S.budget source
decreasing_by exact S.fetch_budget _ _ _ h

section
variable {S} {len : Nat} {out : Bytes} {acc : Nat} {source : σ}

theorem getBlocks_done (h : ¬ len - acc ≥ maxBlocksize) :
    getBlocks S len out acc source = .ok (out,acc,source) := by
  rw [getBlocks,if_neg h]

theorem getBlocks_error (h : len - acc ≥ maxBlocksize) {e : Halt ReadError}
    (hf : S.fetch source = .error e) : getBlocks S len out acc source = .error e := by
  rw [getBlocks,if_pos h]
  split
  · next hf' => rw [hf] at hf'; cases hf'; rfl
  · next hf' => rw [hf] at hf'; cases hf'

theorem getBlocks_block (h : len - acc ≥ maxBlocksize) {b : Block} {source' : σ}
    (hf : S.fetch source = .ok (b,source')) :
    getBlocks S len out acc source =
      if b.1.length ≠ maxBlocksize then .error corrupted
      else getBlocks S len (writeAt out acc b.1) ((acc+maxBlocksize) % 2 ^ 32) source' := by
  rw [getBlocks,if_pos h]
  split
  · next hf' => rw [hf] at hf'; cases hf'
  · next hf' => rw [hf] at hf'; cases hf'; rfl

end

def getTail (len : Nat) (out : Bytes) (acc : Nat) (source : σ) :
    Except (Halt ReadError) (Bytes × Cursor σ) :=
  if len - acc > 0 then
    match S.fetch source with
    | .error e => .error e
    | .ok (b,source) =>
        if b.1.length < len - acc then .error corrupted
        else .ok (writeAt out acc (b.1.take (len - acc)),⟨b.1.drop (len - acc),source⟩)
  else .ok (out,⟨[],source⟩)

def getRest (len : Nat) (out : Bytes) (acc : Nat) (source : σ) :
    Except (Halt ReadError) (Bytes × Cursor σ) :=
  match getBlocks S len out acc source with
  | .error e => .error e
  | .ok (out,acc,source) => getTail S len out acc source

def getData (len : Nat) (c : Cursor σ) : Except (Halt ReadError) (Bytes × Cursor σ) :=
  if len ≤ c.pending.length then
    .ok (c.pending.take len,{ c with pending := c.pending.drop len })
  else getRest S len c.pending c.pending.length c.source

end Cursor

/-- The calls of a block reader on a cursor. -/
def cursor {σ : Type} (S : BlockSource σ) : Handler GetOp Bytes ReadError (Cursor σ)
  | .pod size => Cursor.getPod S size
  | .podContiguous size => Cursor.take size
  | .data len => Cursor.getData S len

/-- What a block reader has in common with its cursor. Of its block buffer only the part
between offset and size counts. -/
structure Shows {σ : Type} (st : BlockReader σ) (c : Cursor σ) : Prop where
  source : st.source = c.source
  offset : st.dataOffset ≤ st.currentBlocksize
  size : st.currentBlocksize ≤ maxBlocksize
  pending : (st.block.drop st.dataOffset).take (st.currentBlocksize - st.dataOffset) = c.pending
  length : c.pending.length = st.currentBlocksize - st.dataOffset

theorem Shows.start {σ : Type} (source : σ) :
    Shows (BlockReader.start source) (Cursor.start source) :=
  ⟨rfl,Nat.le_refl 0,Nat.zero_le _,rfl,rfl⟩

theorem Shows.remaining {σ : Type} {st : BlockReader σ} {c : Cursor σ} (h : Shows st c) :
    sub32 st.currentBlocksize st.dataOffset = c.pending.length := by
  have ho := h.offset
  have hs := h.size
  rw [h.length,sub32]
  simp only [maxBlocksize] at hs
  omega

theorem Shows.pending_le {σ : Type} {st : BlockReader σ} {c : Cursor σ} (h : Shows st c) :
    c.pending.length ≤ maxBlocksize := by
  have hl := h.length
  have hs := h.size
  omega

theorem Shows.fresh {σ : Type} (b : Block) (source : σ) :
    Shows ⟨source,b.1,b.1.length,0⟩ ⟨b.1,source⟩ :=
  ⟨rfl,Nat.zero_le _,b.2,by simp,by simp⟩

theorem Shows.advance {σ : Type} {st : BlockReader σ} {c : Cursor σ} (h : Shows st c)
    {n : Nat} (hn : n ≤ c.pending.length) :
    (st.block.drop st.dataOffset).take n = c.pending.take n ∧
      Shows { st with dataOffset := st.dataOffset+n } { c with pending := c.pending.drop n } := by
  have hl := h.length
  have ho := h.offset
  refine ⟨?_,h.source,by simp only; omega,h.size,?_,by simp only [List.length_drop]; omega⟩
  · rw [← h.pending,List.take_take]
    congr 1
    omega
  · simp only
    rw [← h.pending,List.drop_take,List.drop_drop]
    congr 1
    omega

section
variable {σ : Type} {S : BlockSource σ}

theorem takePod_shows {st : BlockReader σ} {c : Cursor σ} (h : Shows st c) (size : Nat) :
    Related Shows Eq (BlockReader.takePod size st) (Cursor.take size c) := by
  rw [BlockReader.takePod,Cursor.take,h.remaining]
  by_cases hs : c.pending.length < size
  · rw [if_pos hs,if_pos hs]
    exact rfl
  · rw [if_neg hs,if_neg hs]
    exact h.advance (by omega)

theorem getPod_shows {st : BlockReader σ} {c : Cursor σ} (h : Shows st c) (size : Nat) :
    Related Shows Eq (BlockReader.getPod S size st) (Cursor.getPod S size c) := by
  have hl := h.length
  have ho := h.offset
  rw [BlockReader.getPod,Cursor.getPod]
  by_cases hp : c.pending = []
  · have heq : st.currentBlocksize = st.dataOffset := by
      rw [hp] at hl
      simp only [List.length_nil] at hl
      omega
    rw [if_pos heq,if_pos hp,BlockReader.newBlock,h.source]
    cases hf : S.fetch c.source with
    | error e => exact rfl
    | ok x =>
      obtain ⟨b,source⟩ := x
      exact takePod_shows (Shows.fresh b source) size
  · have hne : st.currentBlocksize ≠ st.dataOffset := by
      intro heq
      exact hp (List.eq_nil_of_length_eq_zero (by omega))
    rw [if_neg hne,if_neg hp]
    exact takePod_shows h size

theorem Shows.used_up (source : σ) (block : Bytes) {n : Nat} (h : n = maxBlocksize) :
    Shows ⟨source,block,n,maxBlocksize⟩ ⟨[],source⟩ := by
  subst h
  exact ⟨rfl,Nat.le_refl _,Nat.le_refl _,by simp,by simp⟩

def LoopShows (acc₀ : Nat) (st : BlockReader σ) :
    Except (Halt ReadError) (Bytes × Nat × BlockReader σ) →
    Except (Halt ReadError) (Bytes × Nat × σ) → Prop
  | .ok (out,acc,st'), .ok (out',acc',source) =>
      out = out' ∧ acc = acc' ∧ st'.source = source ∧
        ((st' = st ∧ acc = acc₀) ∨ Shows st' ⟨[],source⟩)
  | .error e, .error e' => e = e'
  | _, _ => False

theorem LoopShows.later {acc₀ acc₁ : Nat} {st st₁ : BlockReader σ} {source : σ}
    (h₁ : Shows st₁ ⟨[],source⟩) {x : Except (Halt ReadError) (Bytes × Nat × BlockReader σ)}
    {y : Except (Halt ReadError) (Bytes × Nat × σ)} (h : LoopShows acc₁ st₁ x y) :
    LoopShows acc₀ st x y := by
  cases x with
  | error e => cases y <;> exact h
  | ok x =>
    cases y with
    | error e => exact h
    | ok y =>
      obtain ⟨ho,ha,hs,hst⟩ := h
      refine ⟨ho,ha,hs,.inr ?_⟩
      rcases hst with ⟨rfl,_⟩ | hst
      · rw [← hs,h₁.source]
        exact h₁
      · exact hst

theorem getDataLoop_shows (keep : Bytes → Bytes → Bytes) (len : Nat) (out : Bytes) (acc : Nat)
    (st : BlockReader σ) :
    LoopShows acc st (BlockReader.getDataLoop S keep len out acc st)
      (Cursor.getBlocks S len out acc st.source) := by
  induction out, acc, st using BlockReader.getDataLoop.induct S keep len with
  | case1 out acc st hlen e hf =>
    rw [BlockReader.getDataLoop_error hlen hf,Cursor.getBlocks_error hlen hf]
    exact rfl
  | case2 out acc st hlen b source hf hb =>
    rw [BlockReader.getDataLoop_block hlen hf,Cursor.getBlocks_block hlen hf,if_pos hb,if_pos hb]
    exact rfl
  | case3 out acc st hlen b source hf hb ih =>
    rw [BlockReader.getDataLoop_block hlen hf,Cursor.getBlocks_block hlen hf,if_neg hb,if_neg hb]
    have hsize : b.1.length = maxBlocksize := Decidable.not_not.mp hb
    exact LoopShows.later (Shows.used_up source (keep st.block b.1) hsize) ih
  | case4 out acc st hlen =>
    rw [BlockReader.getDataLoop_done hlen,Cursor.getBlocks_done hlen]
    exact ⟨rfl,rfl,rfl,.inl ⟨rfl,rfl⟩⟩

theorem getTail_shows (len : Nat) (out : Bytes) (acc : Nat) {st : BlockReader σ} {source : σ}
    (hs : st.source = source) (hend : len - acc = 0 → Shows st ⟨[],source⟩) :
    Related Shows Eq
      (if len - acc > 0 then
        match st.newBlock S with
        | .error e => .error e
        | .ok st =>
            if st.currentBlocksize < len - acc then .error corrupted
            else .ok (writeAt out acc (st.block.take (len - acc)),
              { st with dataOffset := len - acc })
      else .ok (out,st))
      (Cursor.getTail S len out acc source) := by
  subst hs
  rw [Cursor.getTail]
  by_cases hlen : len - acc > 0
  · rw [if_pos hlen,if_pos hlen,BlockReader.newBlock]
    cases hf : S.fetch st.source with
    | error e => exact rfl
    | ok x =>
      obtain ⟨b,source⟩ := x
      simp only
      by_cases hb : b.1.length < len - acc
      · rw [if_pos hb,if_pos hb]
        exact rfl
      · rw [if_neg hb,if_neg hb]
        have ha := ((Shows.fresh b source).advance (n := len - acc) (by simp only; omega)).2
        simp only [Nat.zero_add] at ha
        exact ⟨rfl,ha⟩
  · rw [if_neg hlen,if_neg hlen]
    exact ⟨rfl,hend (by omega)⟩

theorem getData_shows {st : BlockReader σ} {c : Cursor σ} (h : Shows st c)
    (keep : Bytes → Bytes → Bytes) (len : Nat) :
    Related Shows Eq (BlockReader.getData S keep len st) (Cursor.getData S len c) := by
  rw [BlockReader.getData,Cursor.getData,h.remaining]
  by_cases hlen : len ≤ c.pending.length
  · rw [if_pos hlen,if_pos hlen]
    exact h.advance hlen
  rw [if_neg hlen,if_neg hlen,Cursor.getRest]
  have hpend : (st.block.drop st.dataOffset).take c.pending.length = c.pending := by
    rw [(h.advance (Nat.le_refl _)).1,List.take_length]
  have hloop := getDataLoop_shows (S := S) keep len c.pending c.pending.length st
  simp only [hpend]
  rw [h.source] at hloop
  cases hx : BlockReader.getDataLoop S keep len c.pending c.pending.length st with
  | error e =>
    cases hy : Cursor.getBlocks S len c.pending c.pending.length c.source with
    | error e' => rw [hx,hy] at hloop; exact hloop
    | ok y => rw [hx,hy] at hloop; cases hloop
  | ok x =>
    cases hy : Cursor.getBlocks S len c.pending c.pending.length c.source with
    | error e => rw [hx,hy] at hloop; cases hloop
    | ok y =>
      rw [hx,hy] at hloop
      obtain ⟨out,acc,st'⟩ := x
      obtain ⟨out',acc',source⟩ := y
      obtain ⟨rfl,rfl,hs,hst⟩ := hloop
      refine getTail_shows len out acc hs fun hend => ?_
      rcases hst with ⟨_,hacc⟩ | hst
      · omega
      · exact hst

end

/-- Both block readers answer every call as the cursor does, over any source. -/
theorem blockCompressReader_cursor {σ : Type} (S : BlockSource σ) (op : GetOp)
    (st : BlockReader σ) (c : Cursor σ) (h : Shows st c) :
    Related Shows Eq (blockCompressReader S op st) (cursor S op c) := by
  cases op with
  | pod size => exact getPod_shows h size
  | podContiguous size => exact takePod_shows h size
  | data len => exact getData_shows h _ len

theorem blockCompressReaderMT_cursor {σ : Type} (S : BlockSource σ) (op : GetOp)
    (st : BlockReader σ) (c : Cursor σ) (h : Shows st c) :
    Related Shows Eq (blockCompressReaderMT S op st) (cursor S op c) := by
  cases op with
  | pod size => exact getPod_shows h size
  | podContiguous size => exact takePod_shows h size
  | data len => exact getData_shows h _ len

/-- All blocks a source would hand out, and how it stops. -/
def BlockSource.feed {σ : Type} (S : BlockSource σ) (s : σ) : Feed :=
  match _h : S.fetch s with
  | .error e => ⟨[],e⟩
  | .ok (b,s') => ⟨b :: (S.feed s').blocks,(S.feed s').stop⟩
termination_by S.budget s
decreasing_by all_goals exact S.fetch_budget _ _ _ _h

section
variable {σ : Type} {S : BlockSource σ}

theorem BlockSource.feed_error {s : σ} {e : Halt ReadError} (h : S.fetch s = .error e) :
    S.feed s = ⟨[],e⟩ := by
  rw [BlockSource.feed]
  split
  · next h' => rw [h] at h'; cases h'; rfl
  · next h' => rw [h] at h'; cases h'

theorem BlockSource.feed_ok {s t : σ} {b : Block} (h : S.fetch s = .ok (b,t)) :
    S.feed s = ⟨b :: (S.feed t).blocks,(S.feed t).stop⟩ := by
  rw [BlockSource.feed]
  split
  · next h' => rw [h] at h'; cases h'
  · next h' => rw [h] at h'; cases h'; rfl

theorem BlockSource.feed_next (s : σ) :
    feedSource.fetch (S.feed s) = (S.fetch s).map fun r => (r.1,S.feed r.2) := by
  cases h : S.fetch s with
  | error e => rw [S.feed_error h]; rfl
  | ok r =>
    obtain ⟨b,s'⟩ := r
    rw [S.feed_ok h]
    rfl

theorem feedSource_feed (f : Feed) : feedSource.feed f = f := by
  obtain ⟨blocks,stop⟩ := f
  induction blocks with
  | nil => exact feedSource.feed_error rfl
  | cons b blocks ih => rw [feedSource.feed_ok (t := ⟨blocks,stop⟩) rfl,ih]

def Cursor.unroll (S : BlockSource σ) (c : Cursor σ) : Cursor Feed :=
  ⟨c.pending,S.feed c.source⟩

def Alongside {σ τ : Type} (R : σ → τ → Prop) (c : Cursor σ) (d : Cursor τ) : Prop :=
  d.pending = c.pending ∧ R c.source d.source

section
variable {τ : Type} {T : BlockSource τ} {R : σ → τ → Prop} {B : Halt ReadError → Prop}
  {E : Halt ReadError → Halt ReadError → Prop}

theorem take_alongside (hc : E corrupted corrupted) (size : Nat) {c : Cursor σ} {d : Cursor τ}
    (h : Alongside R c d) :
    Excused B (Alongside R) E (Cursor.take size c) (Cursor.take size d) := by
  rw [Cursor.take,Cursor.take,h.1]
  split
  · exact .inr hc
  · exact .inr ⟨rfl,rfl,h.2⟩

variable (hc : E corrupted corrupted)
  (hfetch : ∀ s t, R s t → Excused B R E (S.fetch s) (T.fetch t))
include hc hfetch

theorem getRest_alongside (len : Nat) (out : Bytes) (acc : Nat) (s : σ) (t : τ) (h : R s t) :
    Excused B (Alongside R) E (Cursor.getRest S len out acc s)
      (Cursor.getRest T len out acc t) := by
  induction out, acc, s using Cursor.getBlocks.induct S len generalizing t with
  | case1 out acc s hlen e hf =>
    rw [Cursor.getRest,Cursor.getBlocks_error hlen hf]
    have hs := hfetch s t h
    rw [hf] at hs
    rcases hs.of_error with hb | ⟨e',hf',he⟩
    · exact .inl ⟨e,rfl,hb⟩
    · rw [Cursor.getRest,Cursor.getBlocks_error hlen hf']
      exact .inr he
  | case2 out acc s hlen b s' hf hb =>
    have hs := hfetch s t h
    rw [hf] at hs
    obtain ⟨t',hf',_⟩ := hs.of_ok
    rw [Cursor.getRest,Cursor.getBlocks_block hlen hf,if_pos hb,Cursor.getRest,
      Cursor.getBlocks_block hlen hf',if_pos hb]
    exact .inr hc
  | case3 out acc s hlen b s' hf hb ih =>
    have hs := hfetch s t h
    rw [hf] at hs
    obtain ⟨t',hf',h'⟩ := hs.of_ok
    rw [Cursor.getRest,Cursor.getBlocks_block hlen hf,if_neg hb,Cursor.getRest,
      Cursor.getBlocks_block hlen hf',if_neg hb]
    exact ih t' h'
  | case4 out acc s hlen =>
    rw [Cursor.getRest,Cursor.getBlocks_done hlen,Cursor.getRest,Cursor.getBlocks_done hlen]
    simp only [Cursor.getTail]
    by_cases ht : len - acc > 0
    · rw [if_pos ht,if_pos ht]
      have hs := hfetch s t h
      cases hf : S.fetch s with
      | error e =>
        rw [hf] at hs
        rcases hs.of_error with hb | ⟨e',hf',he⟩
        · exact .inl ⟨e,rfl,hb⟩
        · rw [hf']
          exact .inr he
      | ok x =>
        rw [hf] at hs
        obtain ⟨t',hf',h'⟩ := hs.of_ok
        rw [hf']
        simp only
        split
        · exact .inr hc
        · exact .inr ⟨rfl,rfl,h'⟩
    · rw [if_neg ht,if_neg ht]
      exact .inr ⟨rfl,rfl,h⟩

theorem cursor_alongside (op : GetOp) (c : Cursor σ) (d : Cursor τ) (h : Alongside R c d) :
    Excused B (Alongside R) E (cursor S op c) (cursor T op d) := by
  cases op with
  | podContiguous size => exact take_alongside hc size h
  | pod size =>
    simp only [cursor,Cursor.getPod,h.1]
    by_cases hp : c.pending = []
    · rw [if_pos hp,if_pos hp]
      have hs := hfetch _ _ h.2
      cases hf : S.fetch c.source with
      | error e =>
        rw [hf] at hs
        rcases hs.of_error with hb | ⟨e',hf',he⟩
        · exact .inl ⟨e,rfl,hb⟩
        · rw [hf']
          exact .inr he
      | ok x =>
        rw [hf] at hs
        obtain ⟨t',hf',h'⟩ := hs.of_ok
        rw [hf']
        exact take_alongside hc size ⟨rfl,h'⟩
    · rw [if_neg hp,if_neg hp]
      exact take_alongside hc size h
  | data len =>
    simp only [cursor,Cursor.getData,h.1]
    split
    · exact .inr ⟨rfl,rfl,h.2⟩
    · exact getRest_alongside hc hfetch len _ _ _ _ h.2

end

theorem cursor_unrolled (op : GetOp) (c : Cursor σ) (c' : Cursor Feed)
    (h : c' = c.unroll S) :
    Related (fun c c' => c' = c.unroll S) Eq (cursor S op c) (cursor feedSource op c') := by
  have hfetch : ∀ s f, f = S.feed s →
      Excused (fun _ => False) (fun s f => f = S.feed s) Eq (S.fetch s) (feedSource.fetch f) := by
    rintro s _ rfl
    rw [S.feed_next]
    refine .inr ?_
    cases S.fetch s with
    | error e => exact rfl
    | ok r => exact ⟨rfl,rfl⟩
  have h := (cursor_alongside rfl hfetch op c c' (by rw [h]; exact ⟨rfl,rfl⟩)).resolve_left
    fun ⟨_,_,hb⟩ => hb
  cases hx : cursor S op c with
  | error e =>
    cases hy : cursor feedSource op c' with
    | error e' => rw [hx,hy] at h; exact h
    | ok y => rw [hx,hy] at h; cases h
  | ok x =>
    cases hy : cursor feedSource op c' with
    | error e => rw [hx,hy] at h; cases h
    | ok y =>
      rw [hx,hy] at h
      obtain ⟨hv,hp,hs⟩ := h
      refine ⟨hv,?_⟩
      obtain ⟨r,pending,source⟩ := y
      simp only at hp hs
      rw [hp,hs]
      rfl

end

/-- The reader fed with these blocks: what either block reader makes of them. -/
def readFeed {α : Type} (p : Reader α) (f : Feed) : ReadResult (α × Cursor Feed) :=
  p.run (cursor feedSource) (Cursor.start f)

/-- A block reader over a source runs like its cursor, and like the cursor over the
blocks of the source. -/
theorem run_cursor {α σ : Type} {S : BlockSource σ}
    {h : Handler GetOp Bytes ReadError (BlockReader σ)}
    (hh : ∀ op st c, Shows st c → Related Shows Eq (h op st) (cursor S op c))
    (p : Reader α) (source : σ) :
    Related Shows Eq (p.run h (.start source)) (p.run (cursor S) (Cursor.start source)) :=
  run_related (fun _ => rfl) hh p (Shows.start source)

theorem run_unroll {α σ : Type} (S : BlockSource σ) (p : Reader α) (source : σ) :
    Related (fun c c' => c' = c.unroll S) Eq (p.run (cursor S) (Cursor.start source))
      (readFeed p (S.feed source)) :=
  run_related (fun _ => rfl) cursor_unrolled p rfl

theorem readSingleThread_eq (dp : Decompressor) (stream : Bytes) (maxDepth : Nat) :
    readSingleThread dp stream maxDepth =
      (readFeed (streamRead maxDepth) ((streamSource dp).feed stream)).map Prod.fst := by
  rw [readSingleThread,(run_cursor (blockCompressReader_cursor _) _ stream).map_fst]
  exact (run_unroll _ _ stream).map_fst

section
variable {σ : Type} {S : BlockSource σ} {I : σ → Prop}

theorem getBlocks_keeps (hI : ∀ s b s', I s → S.fetch s = .ok (b,s') → I s') {len : Nat}
    (out : Bytes) (acc : Nat) (source : σ) (hs : I source) {out' : Bytes} {acc' : Nat}
    {source' : σ} (h : Cursor.getBlocks S len out acc source = .ok (out',acc',source')) :
    I source' := by
  induction out, acc, source using Cursor.getBlocks.induct S len with
  | case1 out acc source hlen e hf => rw [Cursor.getBlocks_error hlen hf] at h; cases h
  | case2 out acc source hlen b source₁ hf hb =>
    rw [Cursor.getBlocks_block hlen hf,if_pos hb] at h
    cases h
  | case3 out acc source hlen b source₁ hf hb ih =>
    rw [Cursor.getBlocks_block hlen hf,if_neg hb] at h
    exact ih (hI _ _ _ hs hf) h
  | case4 out acc source hlen =>
    rw [Cursor.getBlocks_done hlen] at h
    cases h
    exact hs

theorem cursor_keeps (hI : ∀ s b s', I s → S.fetch s = .ok (b,s') → I s') (op : GetOp)
    (c : Cursor σ) (bs : Bytes) (c' : Cursor σ) (hc : I c.source)
    (h : cursor S op c = .ok (bs,c')) : I c'.source := by
  have htake : ∀ (size : Nat) (c : Cursor σ), I c.source →
      Cursor.take size c = .ok (bs,c') → I c'.source := by
    intro size c hc h
    rw [Cursor.take] at h
    split at h
    · cases h
    · cases h
      exact hc
  cases op with
  | podContiguous size => exact htake size c hc h
  | pod size =>
    simp only [cursor,Cursor.getPod] at h
    split at h
    · cases hf : S.fetch c.source with
      | error e => simp [hf] at h
      | ok r =>
        simp only [hf] at h
        exact htake size _ (hI _ _ _ hc hf) h
    · exact htake size c hc h
  | data len =>
    simp only [cursor,Cursor.getData] at h
    split at h
    · cases h
      exact hc
    · rw [Cursor.getRest] at h
      cases hg : Cursor.getBlocks S len c.pending c.pending.length c.source with
      | error e => simp [hg] at h
      | ok r =>
        obtain ⟨out,acc,source⟩ := r
        have hs := getBlocks_keeps hI _ _ _ hc hg
        simp only [hg,Cursor.getTail] at h
        split at h
        · cases hf : S.fetch source with
          | error e => simp [hf] at h
          | ok r =>
            simp only [hf] at h
            split at h
            · cases h
            · cases h
              exact hI _ _ _ hs hf
        · cases h
          exact hs

end

end QData
