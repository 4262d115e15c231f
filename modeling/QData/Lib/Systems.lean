import Mathlib.Logic.Function.Basic
import Mathlib.Logic.Relation
/-! Step relations and their runs, finished and endless ones, and a buffer that brings numbered
items into their order. -/
set_option autoImplicit false

namespace Systems

variable {σ : Type}

abbrev Runs (step : σ → σ → Prop) : σ → σ → Prop := Relation.ReflTransGen step

/-- What holds at the start and is kept by every step holds throughout a run. -/
theorem invariant {step : σ → σ → Prop} {I : σ → Prop} {s t : σ} (start : I s)
    (keeps : ∀ s t, I s → step s t → I t) (run : Runs step s t) : I t := by
  induction run with
  | refl => exact start
  | tail _ hstep ih => exact keeps _ _ ih hstep

/-- When a step of one system is, seen from the other, a step or none, so are its runs. -/
theorem simulates {τ : Type} {step : σ → σ → Prop} {step' : τ → τ → Prop} {I : σ → Prop}
    (view : σ → τ) {s t : σ} (start : I s) (keeps : ∀ s t, I s → step s t → I t)
    (simulated : ∀ s t, I s → step s t → view t = view s ∨ step' (view s) (view t))
    (run : Runs step s t) : Runs step' (view s) (view t) := by
  induction run with
  | refl => exact .refl
  | tail hrun hstep ih =>
    have hi := invariant start keeps hrun
    rcases simulated _ _ hi hstep with hsame | hnext
    · rw [hsame]
      exact ih
    · exact ih.tail hnext

/-- When every state that is not final has a step that lowers a measure, every state can
go on to a final one. -/
theorem finishes {step : σ → σ → Prop} {I final : σ → Prop} (measure : σ → Nat)
    (keeps : ∀ s t, I s → step s t → I t)
    (moves : ∀ s, I s → final s ∨ ∃ t, step s t ∧ measure t < measure s) {s : σ} (hs : I s) :
    ∃ t, Runs step s t ∧ final t := by
  induction h : measure s using Nat.strongRecOn generalizing s with
  | ind n ih =>
    rcases moves s hs with hf | ⟨t,ht,hlt⟩
    · exact ⟨s,.refl,hf⟩
    · obtain ⟨u,hu,hf⟩ := ih (measure t) (h ▸ hlt) (keeps s t hs ht) rfl
      exact ⟨u,.head ht hu,hf⟩

/-- When every step lowers a measure, no run has more steps than it starts with. -/
theorem no_longer {step : σ → σ → Prop} {I : σ → Prop} (measure : σ → Nat)
    (keeps : ∀ s t, I s → step s t → I t)
    (lowers : ∀ s t, I s → step s t → measure t < measure s) {run : Nat → σ}
    (hs : I (run 0)) : ∃ n ≤ measure (run 0), ¬ step (run n) (run (n+1)) := by
  refine Classical.byContradiction fun hall => ?_
  simp only [not_exists,not_and,Classical.not_not] at hall
  have hdown : ∀ n ≤ measure (run 0)+1, I (run n) ∧ measure (run n)+n ≤ measure (run 0) := by
    intro n
    induction n with
    | zero => exact fun _ => ⟨hs,Nat.le_refl _⟩
    | succ n ih =>
      intro hn
      obtain ⟨hi,hm⟩ := ih (by omega)
      have hstep := hall n (by omega)
      have hlt := lowers _ _ hi hstep
      exact ⟨keeps _ _ hi hstep,by omega⟩
  have h := (hdown (measure (run 0)+1) (Nat.le_refl _)).2
  omega

/-! Messages under way, of which a step takes one out. -/

section
variable {α : Type} {before after : List α} {x : α}

theorem mem_of_taken {y : α} (h : y ∈ before ++ after) : y ∈ before ++ x :: after := by
  rcases List.mem_append.mp h with h | h
  · exact List.mem_append_left _ h
  · exact List.mem_append_right _ (List.mem_cons_of_mem _ h)

theorem taken_ne_nil {l : List α} (h : l = before ++ x :: after) : l ≠ [] := by
  rw [h]
  exact List.append_ne_nil_of_right_ne_nil _ (List.cons_ne_nil x after)

theorem mem_map_taken {β : Type} {f : α → β} {b : β} :
    b ∈ (before ++ x :: after).map f ↔ b = f x ∨ b ∈ (before ++ after).map f := by
  simp only [List.map_append,List.map_cons,List.mem_append,List.mem_cons]
  exact or_left_comm

end

/-! Runs that never end: what fairness leaves of them when a step relation has steps that use
something up and steps that only wait. -/

/-- A run with a next step at every moment. -/
def Endless (step : σ → σ → Prop) (run : Nat → σ) : Prop := ∀ n, step (run n) (run (n+1))

/-- Work that is there is not left alone forever. -/
def Fair (ready : σ → Prop) (works : σ → σ → Prop) (run : Nat → σ) : Prop :=
  ∀ n, ∃ m, n ≤ m ∧ (ready (run m) → works (run m) (run (m+1)))

inductive Counted (step waits : σ → σ → Prop) : Nat → σ → σ → Prop
  | refl (s : σ) : Counted step waits 0 s s
  | wait {k : Nat} {s t u : σ} (run : Counted step waits k s t) (next : step t u)
      (waiting : waits t u) : Counted step waits k s u
  | work {k : Nat} {s t u : σ} (run : Counted step waits k s t) (next : step t u)
      (working : ¬ waits t u) : Counted step waits (k+1) s u

theorem Counted.runs {step waits : σ → σ → Prop} {k : Nat} {s t : σ}
    (h : Counted step waits k s t) : Runs step s t := by
  induction h with
  | refl s => exact .refl
  | wait _ next _ ih => exact ih.tail next
  | work _ next _ ih => exact ih.tail next

theorem rests {f : Nat → Nat} (h : ∀ n, f (n+1) ≤ f n) : ∃ n, ∀ m, n ≤ m → f m = f n := by
  have hle : ∀ {n m}, n ≤ m → f m ≤ f n := by
    intro n m hm
    induction hm with
    | refl => exact Nat.le_refl _
    | step _ ih => exact Nat.le_trans (h _) ih
  have hdown : ∀ k n, f n = k → ∃ n, ∀ m, n ≤ m → f m = f n := by
    intro k
    induction k using Nat.strongRecOn with
    | ind k ih =>
      intro n hn
      by_cases hrest : ∀ m, n ≤ m → f m = f n
      · exact ⟨n,hrest⟩
      · obtain ⟨m,h⟩ := Classical.not_forall.mp hrest
        obtain ⟨hm,hne⟩ := Classical.not_imp.mp h
        exact ih (f m) (hn ▸ Nat.lt_of_le_of_ne (hle hm) hne) m rfl
  exact hdown _ 0 rfl

section
variable {step waits works : σ → σ → Prop} {I ready : σ → Prop} {progress : σ → Nat}
  (keeps : ∀ s t, I s → step s t → I t)
  (moves : ∀ s t, I s → step s t → (waits s t ∧ progress t = progress s) ∨ progress t < progress s)
include keeps moves

theorem Counted.paid {k : Nat} {s t : σ} (h : Counted step waits k s t) (hs : I s) :
    k+progress t ≤ progress s := by
  induction h with
  | refl s => omega
  | wait run next waiting ih =>
    have hle := ih hs
    rcases moves _ _ (invariant hs keeps run.runs) next with ⟨_,h⟩ | h <;> omega
  | work run next working ih =>
    have hle := ih hs
    rcases moves _ _ (invariant hs keeps run.runs) next with ⟨h,_⟩ | h
    · exact absurd h working
    · omega

/-- Steps that wait come to an end when there is no work left to wait for, so a run that never
ends leaves work alone. -/
theorem not_fair (patience : σ → Nat)
    (worked : ∀ s t, I s → works s t → progress t < progress s)
    (runs_out : ∀ s t, I s → step s t → ¬ ready s → ¬ ready t ∧ patience t < patience s)
    {run : Nat → σ} (start : I (run 0)) (endless : Endless step run) : ¬ Fair ready works run := by
  intro fair
  have hi : ∀ n, I (run n) := by
    intro n
    induction n with
    | zero => exact start
    | succ n ih => exact keeps _ _ ih (endless n)
  obtain ⟨n,hrest⟩ := @rests (fun n => progress (run n)) fun n => by
    rcases moves _ _ (hi n) (endless n) with ⟨_,h⟩ | h
    · exact Nat.le_of_eq h
    · exact Nat.le_of_lt h
  obtain ⟨m,hm,hworks⟩ := fair n
  -- nothing works any more, so at some moment nothing is ready
  have hidle : ¬ ready (run m) := by
    intro hready
    have hlt := worked _ _ (hi m) (hworks hready)
    have h := hrest m hm
    have h' := hrest (m+1) (Nat.le_succ_of_le hm)
    omega
  have hdown : ∀ k, ¬ ready (run (m+k)) ∧ patience (run (m+k))+k ≤ patience (run m) := by
    intro k
    induction k with
    | zero => exact ⟨hidle,Nat.le_refl _⟩
    | succ k ih =>
      obtain ⟨hnot,hlt⟩ := runs_out _ _ (hi (m+k)) (endless (m+k)) ih.1
      rw [Nat.add_assoc] at hnot hlt
      exact ⟨hnot,by omega⟩
  have h := (hdown (patience (run m)+1)).2
  omega

end

end Systems

/-! A buffer that takes numbered items in any order and releases them in order, each
number once. -/

namespace Sequencing

/-- Items that wait for their turn, and the number whose turn it is. -/
structure Sequencer (α : Type) where
  slots : Nat → Option α
  head : Nat

variable {α : Type}

def Sequencer.empty : Sequencer α := ⟨fun _ => none,0⟩

/-- A number that was released before or is waiting already is refused. -/
def Sequencer.put (q : Sequencer α) (tag : Nat) (a : α) : Sequencer α :=
  if tag < q.head ∨ (q.slots tag).isSome then q
  else { q with slots := Function.update q.slots tag (some a) }

def Sequencer.release (q : Sequencer α) : Sequencer α :=
  ⟨Function.update q.slots q.head none,q.head+1⟩

def Sequencer.next (q : Sequencer α) : Option α := q.slots q.head

/-- A number is settled once it has been released or waits in the buffer. -/
def Sequencer.Settled (q : Sequencer α) (tag : Nat) : Prop :=
  tag < q.head ∨ (q.slots tag).isSome

def Sequencer.Carries (q : Sequencer α) (R : Nat → α → Prop) : Prop :=
  ∀ tag a, q.slots tag = some a → R tag a

@[simp] theorem Sequencer.head_put (q : Sequencer α) (tag : Nat) (a : α) :
    (q.put tag a).head = q.head := by
  rw [Sequencer.put]
  split <;> rfl

theorem Sequencer.slots_put {q : Sequencer α} {tag n : Nat} {a b : α}
    (h : (q.put tag a).slots n = some b) : q.slots n = some b ∨ (n = tag ∧ b = a) := by
  rw [Sequencer.put] at h
  split at h
  · exact .inl h
  · by_cases hn : n = tag
    · subst hn
      simp only [Function.update_self,Option.some.injEq] at h
      exact .inr ⟨rfl,h.symm⟩
    · simp only [Function.update_of_ne hn] at h
      exact .inl h

theorem Sequencer.settled_put (q : Sequencer α) (tag : Nat) (a : α) :
    (q.put tag a).Settled tag := by
  rw [Sequencer.put]
  split
  · next h => exact h
  · exact .inr (by simp)

theorem Sequencer.Settled.put {q : Sequencer α} {n : Nat} (h : q.Settled n) (tag : Nat)
    (a : α) : (q.put tag a).Settled n := by
  rcases h with h | h
  · exact .inl (by simpa using h)
  · rw [Sequencer.put]
    split
    · exact .inr h
    · refine .inr ?_
      by_cases hn : n = tag
      · subst hn
        simp
      · simpa [Function.update_of_ne hn] using h

theorem Sequencer.Settled.release {q : Sequencer α} {n : Nat} (h : q.Settled n) :
    q.release.Settled n := by
  rcases h with h | h
  · exact .inl (Nat.lt_succ_of_lt h)
  · by_cases hn : n = q.head
    · exact .inl (by rw [hn]; exact Nat.lt_succ_self _)
    · exact .inr (by simpa [Sequencer.release,Function.update_of_ne hn] using h)

theorem Sequencer.Carries.put {q : Sequencer α} {R : Nat → α → Prop} (h : q.Carries R)
    {tag : Nat} {a : α} (ha : R tag a) : (q.put tag a).Carries R := by
  intro n b hb
  rcases Sequencer.slots_put hb with hb | ⟨rfl,rfl⟩
  · exact h n b hb
  · exact ha

theorem Sequencer.Carries.release {q : Sequencer α} {R : Nat → α → Prop} (h : q.Carries R) :
    q.release.Carries R := by
  intro n b hb
  by_cases hn : n = q.head
  · subst hn
    simp [Sequencer.release] at hb
  · simp only [Sequencer.release,Function.update_of_ne hn] at hb
    exact h n b hb

theorem Sequencer.put_alone {q : Sequencer α} (h : ∀ n, q.slots n = none) (a : α) :
    (q.put q.head a).next = some a ∧ (q.put q.head a).release.head = q.head+1 ∧
      ∀ n, (q.put q.head a).release.slots n = none := by
  have hslots : (q.put q.head a).slots = Function.update q.slots q.head (some a) := by
    simp [Sequencer.put,h]
  refine ⟨by rw [Sequencer.next,Sequencer.head_put,hslots,Function.update_self],
    by rw [Sequencer.release,Sequencer.head_put],fun n => ?_⟩
  simp only [Sequencer.release,Sequencer.head_put,hslots]
  by_cases hn : n = q.head
  · rw [hn,Function.update_self]
  · rw [Function.update_of_ne hn,Function.update_of_ne hn,h]

theorem Sequencer.carries_empty (R : Nat → α → Prop) : (Sequencer.empty (α := α)).Carries R :=
  fun _ _ h => by cases h

theorem Sequencer.put_cases (q : Sequencer α) (tag : Nat) (a : α) :
    (q.put tag a).slots = q.slots ∨
      (q.put tag a).slots = Function.update q.slots tag (some a) := by
  unfold put
  split
  · exact .inl rfl
  · exact .inr rfl

/-! A buffer whose items are looked at through a function. -/

section
variable {β : Type} (f : α → β)

def Sequencer.map (q : Sequencer α) : Sequencer β := ⟨fun tag => (q.slots tag).map f,q.head⟩

theorem Sequencer.map_put (q : Sequencer α) (tag : Nat) (a : α) :
    (q.put tag a).map f = (q.map f).put tag (f a) := by
  have hrefused : (tag < q.head ∨ (q.slots tag).isSome) ↔
      (tag < (q.map f).head ∨ ((q.map f).slots tag).isSome) := by
    simp [map]
  by_cases h : tag < q.head ∨ (q.slots tag).isSome
  · rw [put,if_pos h,put,if_pos (hrefused.mp h)]
  · rw [put,if_neg h,put,if_neg (fun hf => h (hrefused.mpr hf))]
    simp only [map,Sequencer.mk.injEq,and_true]
    funext n
    by_cases hn : n = tag
    · subst hn
      simp
    · simp [Function.update_of_ne hn]

theorem Sequencer.map_release (q : Sequencer α) : q.release.map f = (q.map f).release := by
  simp only [map,release,Sequencer.mk.injEq,and_true]
  funext n
  by_cases hn : n = q.head
  · subst hn
    simp
  · simp [Function.update_of_ne hn]

theorem Sequencer.next_map (q : Sequencer α) : (q.map f).next = q.next.map f := rfl

end

end Sequencing
