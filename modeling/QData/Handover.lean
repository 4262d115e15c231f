import QData.Cursor
/-! Blocks handed over one after another: what a reader makes of those it has, and what
becomes of that when more arrive, when the source stops, or when a block is empty. -/
set_option autoImplicit false

namespace QData
open Words Requests

variable {α : Type}

/-- What a program on the multithreaded reader comes to with the blocks handed over so
far. It is blocked when it calls for another. -/
def demand (p : Reader α) (got : List Block) : ReadResult α :=
  (p.run (blockCompressReaderMT feedSource) (.start ⟨got,.blocked⟩)).map Prod.fst

def returnedValues (p : Reader α) (got : List Block) : List Bytes :=
  p.answers (blockCompressReaderMT feedSource) (.start ⟨got,.blocked⟩)

theorem demand_eq (p : Reader α) (got : List Block) :
    demand p got = (readFeed p ⟨got,.blocked⟩).map Prod.fst :=
  (run_cursor (blockCompressReaderMT_cursor feedSource) p ⟨got,.blocked⟩).map_fst

theorem returnedValues_eq (p : Reader α) (got : List Block) :
    returnedValues p got = p.answers (cursor feedSource) (Cursor.start ⟨got,.blocked⟩) :=
  answers_related (fun op st c _ h => blockCompressReaderMT_cursor feedSource op st c h)
    p.asks_any (Shows.start _)

theorem answers_unroll {σ : Type} (S : BlockSource σ) (p : Reader α) (source : σ) :
    p.answers (blockCompressReader S) (.start source) =
      p.answers (cursor feedSource) (Cursor.start (S.feed source)) := by
  rw [answers_related (fun op st c _ h => blockCompressReader_cursor S op st c h) p.asks_any
    (Shows.start source)]
  exact answers_related (fun op c c' _ h => cursor_unrolled op c c' h) p.asks_any rfl

def Grows (f g : Feed) : Prop := f.stop = .blocked ∧ ∃ more, g.blocks = f.blocks ++ more

theorem grows_next (f g : Feed) (h : Grows f g) :
    Excused (· = .blocked) Grows Eq (feedSource.fetch f) (feedSource.fetch g) := by
  obtain ⟨blocks,stop⟩ := f
  obtain ⟨blocks',stop'⟩ := g
  obtain ⟨rfl,more,hmore⟩ := h
  simp only at hmore
  subst hmore
  cases blocks with
  | nil => exact .inl ⟨_,rfl,rfl⟩
  | cons b blocks => exact .inr ⟨rfl,rfl,more,rfl⟩

theorem readFeed_grows (p : Reader α) {f g : Feed} (h : Grows f g) :
    Excused (· = .blocked) (Alongside Grows) Eq (readFeed p f) (readFeed p g) :=
  run_excused (fun _ => rfl) (fun op c d _ hcd => cursor_alongside rfl grows_next op c d hcd)
    p.asks_any ⟨rfl,h⟩

/-- A program that had enough blocks comes to the same with more, however they end. -/
theorem readFeed_enough {p : Reader α} {got : List Block}
    (h : demand p got ≠ .error .blocked) (more : List Block) (stop : Halt ReadError) :
    (readFeed p ⟨got ++ more,stop⟩).map Prod.fst = demand p got := by
  rw [demand_eq] at h ⊢
  rcases readFeed_grows p (f := ⟨got,.blocked⟩) (g := ⟨got ++ more,stop⟩) ⟨rfl,more,rfl⟩ with
    ⟨e,he,hb⟩ | hr
  · rw [he,hb] at h
    exact absurd rfl h
  · exact hr.map_fst.symm

theorem demand_enough {p : Reader α} {got : List Block} (h : demand p got ≠ .error .blocked)
    (more : List Block) : demand p (got ++ more) = demand p got := by
  rw [demand_eq p (got ++ more)]
  exact readFeed_enough h more .blocked

theorem returnedValues_grow (p : Reader α) (got more : List Block) (stop : Halt ReadError) :
    ∃ later, p.answers (cursor feedSource) (Cursor.start ⟨got ++ more,stop⟩) =
      returnedValues p got ++ later := by
  rw [returnedValues_eq]
  exact answers_excused
    (fun op c d _ hcd => cursor_alongside (E := Eq) rfl grows_next op c d hcd) p.asks_any
    ⟨rfl,rfl,more,rfl⟩

def stopped (stop : Halt ReadError) (e : Halt ReadError) : Halt ReadError :=
  match e with
  | .blocked => stop
  | .error e => .error e

def Stops (stop : Halt ReadError) (f g : Feed) : Prop :=
  f.stop = .blocked ∧ g = ⟨f.blocks,stop⟩

theorem stops_next (stop : Halt ReadError) (f g : Feed) (h : Stops stop f g) :
    Excused (fun _ => False) (Stops stop) (fun e e' => e' = stopped stop e)
      (feedSource.fetch f) (feedSource.fetch g) := by
  obtain ⟨blocks,_⟩ := f
  obtain ⟨rfl,rfl⟩ := h
  cases blocks with
  | nil => exact .inr rfl
  | cons b blocks => exact .inr ⟨rfl,rfl,rfl⟩

theorem readFeed_stop (p : Reader α) (blocks : List Block) (stop : Halt ReadError) :
    (readFeed p ⟨blocks,stop⟩).map Prod.fst = (demand p blocks).mapError (stopped stop) := by
  have hrun : Excused (fun _ => False) (Alongside (Stops stop))
      (fun e e' => e' = stopped stop e) (readFeed p ⟨blocks,.blocked⟩)
      (readFeed p ⟨blocks,stop⟩) :=
    run_excused (R := Alongside (Stops stop)) (E := fun e e' => e' = stopped stop e)
      (fun _ => rfl)
      (fun op c d _ hcd =>
        cursor_alongside (E := fun e e' => e' = stopped stop e) rfl (stops_next stop) op c d hcd)
      p.asks_any ⟨rfl,rfl,rfl⟩
  rw [demand_eq]
  exact (hrun.resolve_left fun ⟨_,_,hb⟩ => hb).map_error

def Emptied (f g : Feed) : Prop :=
  f.stop = .blocked ∧ ∃ e : Block, e.1 = [] ∧ g = ⟨f.blocks ++ [e],.blocked⟩

def found (e : Halt ReadError) : Halt ReadError := stopped corrupted e

section
variable {f g : Feed} (h : Emptied f g)
include h

theorem Emptied.next {b : Block} {f' : Feed} (hf : feedSource.fetch f = .ok (b,f')) :
    ∃ g', feedSource.fetch g = .ok (b,g') ∧ Emptied f' g' := by
  obtain ⟨blocks,stop⟩ := f
  obtain ⟨rfl,e,he,rfl⟩ := h
  cases blocks with
  | nil => cases hf
  | cons x xs => cases hf; exact ⟨_,rfl,rfl,e,he,rfl⟩

theorem Emptied.last {e : Halt ReadError} (hf : feedSource.fetch f = .error e) :
    e = .blocked ∧ ∃ b g', feedSource.fetch g = .ok (b,g') ∧ b.1 = [] := by
  obtain ⟨blocks,stop⟩ := f
  obtain ⟨rfl,x,hx,rfl⟩ := h
  cases blocks with
  | nil => cases hf; exact ⟨rfl,x,_,rfl,hx⟩
  | cons y ys => cases hf

end

theorem getRest_emptied {len : Nat} (out : Bytes) (acc : Nat) (f g : Feed) (h : Emptied f g) :
    Related (Alongside Emptied) (fun e e' => e' = found e)
      (Cursor.getRest feedSource len out acc f) (Cursor.getRest feedSource len out acc g) := by
  induction out, acc, f using Cursor.getBlocks.induct feedSource len generalizing g with
  | case1 out acc f hlen e hf =>
    obtain ⟨rfl,b,g',hg,hb⟩ := h.last hf
    have hne : b.1.length ≠ maxBlocksize := by rw [hb]; decide
    rw [Cursor.getRest,Cursor.getBlocks_error hlen hf,Cursor.getRest,
      Cursor.getBlocks_block hlen hg,if_pos hne]
    exact rfl
  | case2 out acc f hlen b f' hf hb =>
    obtain ⟨g',hg,_⟩ := h.next hf
    rw [Cursor.getRest,Cursor.getBlocks_block hlen hf,if_pos hb,Cursor.getRest,
      Cursor.getBlocks_block hlen hg,if_pos hb]
    exact rfl
  | case3 out acc f hlen b f' hf hb ih =>
    obtain ⟨g',hg,h'⟩ := h.next hf
    rw [Cursor.getRest,Cursor.getBlocks_block hlen hf,if_neg hb,Cursor.getRest,
      Cursor.getBlocks_block hlen hg,if_neg hb]
    exact ih g' h'
  | case4 out acc f hlen =>
    rw [Cursor.getRest,Cursor.getBlocks_done hlen,Cursor.getRest,Cursor.getBlocks_done hlen]
    simp only [Cursor.getTail]
    by_cases ht : len - acc > 0
    · rw [if_pos ht,if_pos ht]
      cases hf : feedSource.fetch f with
      | error e =>
        obtain ⟨rfl,b,g',hg,hb⟩ := h.last hf
        have hshort : b.1.length < len - acc := by rw [hb]; exact ht
        rw [hg]
        simp only
        rw [if_pos hshort]
        exact rfl
      | ok x =>
        obtain ⟨g',hg,h'⟩ := h.next hf
        rw [hg]
        simp only
        split
        · exact rfl
        · exact ⟨rfl,rfl,h'⟩
    · rw [if_neg ht,if_neg ht]
      exact ⟨rfl,rfl,h⟩

theorem cursor_emptied {op : GetOp} (hop : op.Sized) {c d : Cursor Feed}
    (h : Alongside Emptied c d) :
    Related (Alongside Emptied) (fun e e' => e' = found e) (cursor feedSource op c)
      (cursor feedSource op d) := by
  have htake : ∀ size, Related (Alongside Emptied) (fun e e' => e' = found e)
      (Cursor.take size c) (Cursor.take size d) := by
    intro size
    rw [Cursor.take,Cursor.take,h.1]
    split
    · exact rfl
    · exact ⟨rfl,rfl,h.2⟩
  cases op with
  | podContiguous size => exact htake size
  | pod size =>
    simp only [cursor,Cursor.getPod,h.1]
    by_cases hp : c.pending = []
    · rw [if_pos hp,if_pos hp]
      cases hf : feedSource.fetch c.source with
      | error e =>
        obtain ⟨rfl,b,g',hg,hb⟩ := h.2.last hf
        have hshort : b.1.length < size := by rw [hb]; exact hop
        rw [hg]
        simp only [Cursor.take]
        rw [if_pos hshort]
        exact rfl
      | ok x =>
        obtain ⟨g',hg,h'⟩ := h.2.next hf
        rw [hg]
        simp only [Cursor.take]
        split
        · exact rfl
        · exact ⟨rfl,rfl,h'⟩
    · rw [if_neg hp,if_neg hp]
      exact htake size
  | data len =>
    simp only [cursor,Cursor.getData,h.1]
    split
    · exact ⟨rfl,rfl,h.2⟩
    · exact getRest_emptied _ _ _ _ h.2

section
variable {p : Reader α} (hp : p.Asks GetOp.Sized) {got : List Block} {e : Block} (he : e.1 = [])
include hp he

theorem demand_emptied : demand p (got ++ [e]) = (demand p got).mapError found := by
  have hrun : Related (Alongside Emptied) (fun e e' => e' = found e)
      (readFeed p ⟨got,.blocked⟩) (readFeed p ⟨got ++ [e],.blocked⟩) :=
    run_related_asks (R := Alongside Emptied) (E := fun e e' => e' = found e)
      (fun _ => rfl) (fun op c d hop hcd => cursor_emptied hop hcd) hp ⟨rfl,rfl,e,he,rfl⟩
  rw [demand_eq,demand_eq]
  exact hrun.map_error

theorem returnedValues_emptied : returnedValues p (got ++ [e]) = returnedValues p got := by
  have hstart : Alongside Emptied (Cursor.start ⟨got,.blocked⟩)
      (Cursor.start ⟨got ++ [e],.blocked⟩) := ⟨rfl,rfl,e,he,rfl⟩
  rw [returnedValues_eq,returnedValues_eq]
  exact (answers_related (fun op c d hop hcd => cursor_emptied hop hcd) hp hstart).symm

end

end QData
