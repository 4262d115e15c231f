import Mathlib.Data.List.ReduceOption
import QData.Lib.Requests
import QData.Lib.Spans
/-! Programs that mark what they have got through, and how many marks and requests the answers
pay for. -/
set_option autoImplicit false

namespace Requests

variable {ι ρ ε α β γ σ : Type}

/-! A program with marks has them among its requests. A mark is answered with nothing. -/

def Prog.mark : Prog (Option ι) (List γ) ε Unit := .ask none fun _ => .ret ()

def Prog.plain (p : Prog ι (List γ) ε α) : Prog (Option ι) (List γ) ε α := p.relabel some

def Prog.marked (p : Prog ι (List γ) ε α) : Prog (Option ι) (List γ) ε α :=
  p.plain >>= fun a => Prog.mark >>= fun _ => pure a

def Prog.unmark : Prog (Option ι) (List γ) ε α → Prog ι (List γ) ε α
  | .ret a => .ret a
  | .fail e => .fail e
  | .ask none k => (k []).unmark
  | .ask (some i) k => .ask i fun r => (k r).unmark

theorem unmark_bind {p : Prog (Option ι) (List γ) ε α} {q : Prog ι (List γ) ε α}
    {f : α → Prog (Option ι) (List γ) ε β} {g : α → Prog ι (List γ) ε β}
    (hp : p.unmark = q) (hf : ∀ a, (f a).unmark = g a) : (p >>= f).unmark = q >>= g := by
  subst hp
  change (p.bind f).unmark = p.unmark.bind g
  induction p with
  | ret a => exact hf a
  | fail e => rfl
  | ask i k ih =>
    cases i with
    | none => exact ih []
    | some i => exact congrArg (Prog.ask i) (funext ih)

@[simp] theorem unmark_plain (p : Prog ι (List γ) ε α) : p.plain.unmark = p := by
  induction p with
  | ret a => rfl
  | fail e => rfl
  | ask i k ih => exact congrArg (Prog.ask i) (funext ih)

@[simp] theorem unmark_marked (p : Prog ι (List γ) ε α) : p.marked.unmark = p := by
  have h : p.marked.unmark = p >>= pure := unmark_bind (unmark_plain p) fun _ => rfl
  exact h.trans p.bind_ret

/-- What happens in a run, in its order: a mark, or a request that is answered. -/
def Prog.events (h : Handler ι (List γ) ε σ) :
    Prog (Option ι) (List γ) ε α → σ → List (Option (List γ))
  | .ret _, _ | .fail _, _ => []
  | .ask none k, s => none :: (k []).events h s
  | .ask (some i) k, s =>
    match h i s with
    | .ok (r,s') => some r :: (k r).events h s'
    | .error _ => []

def marks (events : List (Option (List γ))) : Nat := events.countP Option.isNone

def answered (events : List (Option (List γ))) : List (List γ) := events.reduceOption

theorem answered_events (h : Handler ι (List γ) ε σ) (p : Prog (Option ι) (List γ) ε α) (s : σ) :
    answered (p.events h s) = p.unmark.answers h s := by
  induction p generalizing s with
  | ret a => rfl
  | fail e => rfl
  | ask i k ih =>
    cases i with
    | none => exact ih [] s
    | some i =>
      simp only [Prog.events,Prog.unmark,Prog.answers]
      cases h i s with
      | error e => rfl
      | ok x => exact congrArg (x.1 :: ·) (ih x.1 x.2)

/-- With `m` marks made and `b` units received, the program makes a mark only while there are
more units than marks, asks for something each time, and returns as `Q` says of its value and
the marks. -/
def Prog.Paced (size : ι → Nat) (Q : α → Nat → Prop) :
    Prog (Option ι) (List γ) ε α → Nat → Nat → Prop
  | .ret a, m, _ => Q a m
  | .fail _, _, _ => True
  | .ask none k, m, b => m < b ∧ (k []).Paced size Q (m+1) b
  | .ask (some i) k, m, b => 0 < size i ∧ ∀ r, (k r).Paced size Q m (b+size i)

section
variable {size : ι → Nat} {P Q : α → Nat → Prop} {m b : Nat}

theorem Prog.Paced.bind {R : β → Nat → Prop} {p : Prog (Option ι) (List γ) ε α}
    {f : α → Prog (Option ι) (List γ) ε β} (h : p.Paced size P m b) (hm : m ≤ b)
    (hf : ∀ a m b, m ≤ b → P a m → (f a).Paced size R m b) : (p >>= f).Paced size R m b := by
  change (p.bind f).Paced size R m b
  induction p generalizing m b with
  | ret a => exact hf a m b hm h
  | fail e => trivial
  | ask i k ih =>
    cases i with
    | none => exact ⟨h.1,ih [] h.2 h.1⟩
    | some i => exact ⟨h.1,fun r => ih r (h.2 r) (Nat.le_add_right_of_le hm)⟩

theorem Prog.Paced.mono {p : Prog (Option ι) (List γ) ε α} (h : p.Paced size P m b)
    (hpq : ∀ a m, P a m → Q a m) : p.Paced size Q m b := by
  induction p generalizing m b with
  | ret a => exact hpq a m h
  | fail e => trivial
  | ask i k ih =>
    cases i with
    | none => exact ⟨h.1,ih [] h.2⟩
    | some i => exact ⟨h.1,fun r => ih r (h.2 r)⟩

theorem Prog.Vouches.paced {A : α → Prop} {p : Prog ι (List γ) ε α}
    (h : p.Vouches (fun i => 0 < size i) A) :
    p.plain.Paced size (fun a m' => A a ∧ m' = m) m b := by
  induction p generalizing b with
  | ret a => exact ⟨h,rfl⟩
  | fail e => trivial
  | ask i k ih => exact ⟨h.1,fun r => ih r (h.2 r)⟩

theorem Prog.Asks.paced_later {p : Prog ι (List γ) ε α} (h : p.Asks fun i => 0 < size i)
    (hm : m < b) : p.marked.Paced size (fun _ m' => m' = m+1) m b := by
  induction p generalizing b with
  | ret a => exact ⟨hm,rfl⟩
  | fail e => trivial
  | ask i k ih => exact ⟨h.1,fun r => ih r (h.2 r) (Nat.lt_add_right _ hm)⟩

theorem Prog.Asks.paced {i : ι} {k : List γ → Prog ι (List γ) ε α}
    (h : (Prog.ask i k).Asks fun i => 0 < size i) (hm : m ≤ b) :
    (Prog.ask i k).marked.Paced size (fun _ m' => m' = m+1) m b :=
  ⟨h.1,fun r => (h.2 r).paced_later (Nat.lt_of_le_of_lt hm (Nat.lt_add_of_pos_right h.1))⟩

variable {I : σ → Prop} {h : Handler ι (List γ) ε σ}
  (exact : ∀ i s r s', I s → h i s = .ok (r,s') → r.length = size i ∧ I s')
include exact

/-- At any time of a run there are no more marks, and no more requests, than units received. -/
theorem events_paced {p : Prog (Option ι) (List γ) ε α} (hp : p.Paced size Q m b) (hm : m ≤ b)
    {s : σ} (hs : I s) {front : List (Option (List γ))} (hf : front <+: p.events h s) :
    m+marks front ≤ b+(answered front).flatten.length ∧
      (answered front).length ≤ (answered front).flatten.length := by
  induction p generalizing m b s front with
  | ret a =>
    rw [List.prefix_nil.mp hf]
    exact ⟨hm,Nat.le_refl _⟩
  | fail e =>
    rw [List.prefix_nil.mp hf]
    exact ⟨hm,Nat.le_refl _⟩
  | ask i k ih =>
    cases front with
    | nil => exact ⟨hm,Nat.le_refl _⟩
    | cons x front =>
      cases i with
      | none =>
        obtain ⟨rfl,hrest⟩ := List.cons_prefix_cons.mp hf
        have hnext := ih [] hp.2 hp.1 hs hrest
        simp only [marks,answered,List.countP_cons,Option.isNone_none,if_true,
          List.reduceOption_cons_of_none] at hnext ⊢
        omega
      | some i =>
        simp only [Prog.events] at hf
        cases hi : h i s with
        | error e =>
          rw [hi] at hf
          cases List.prefix_nil.mp hf
        | ok y =>
          rw [hi] at hf
          obtain ⟨rfl,hrest⟩ := List.cons_prefix_cons.mp hf
          obtain ⟨hlen,hs'⟩ := exact i s y.1 y.2 hs hi
          have hpos := hp.1
          have hnext := ih y.1 (hp.2 y.1) (Nat.le_add_right_of_le hm) hs' hrest
          simp only [marks,answered,List.countP_cons,Option.isNone_some,Bool.false_eq_true,
            if_false,List.reduceOption_cons_of_some,List.flatten_cons,List.length_append,
            List.length_cons] at hnext ⊢
          omega

end

theorem run_paced {size : ι → Nat} {Q : α → Nat → Prop} {h : Handler ι (List γ) ε σ}
    {p : Prog (Option ι) (List γ) ε α} {m b : Nat} (hp : p.Paced size Q m b) {s s' : σ} {a : α}
    (hr : p.unmark.run h s = .ok (a,s')) : Q a (m+marks (p.events h s)) := by
  induction p generalizing m b s with
  | ret a =>
    cases hr
    exact hp
  | fail e => cases hr
  | ask i k ih =>
    cases i with
    | none =>
      have hnext := ih [] hp.2 hr
      simp only [Prog.events,marks,List.countP_cons,Option.isNone_none,if_true] at hnext ⊢
      rwa [Nat.add_assoc,Nat.add_comm 1] at hnext
    | some i =>
      simp only [Prog.unmark,Prog.run] at hr
      cases hi : h i s with
      | error e => simp [hi] at hr
      | ok x =>
        simp only [hi] at hr
        have hnext := ih x.1 (hp.2 x.1) hr
        simpa [Prog.events,hi,marks,List.countP_cons] using hnext

/-! Runs with a limit on requests. -/

def Prog.runFor (h : Handler ι ρ ε σ) :
    Prog ι ρ ε α → Nat → σ → Option (Except (Halt ε) (α × σ))
  | .ret a, _, s => some (.ok (a,s))
  | .fail e, _, _ => some (.error (.error e))
  | .ask _ _, 0, _ => none
  | .ask i k, n+1, s =>
    match h i s with
    | .ok (r,s') => (k r).runFor h n s'
    | .error e => some (.error e)

theorem runFor_answers {h : Handler ι ρ ε σ} {p : Prog ι ρ ε α} {n : Nat} {s : σ}
    (hn : (p.answers h s).length < n) : p.runFor h n s = some (p.run h s) := by
  induction p generalizing n s with
  | ret a => rfl
  | fail e => rfl
  | ask i k ih =>
    cases n with
    | zero => cases hn
    | succ n =>
      simp only [Prog.runFor,Prog.run]
      cases hi : h i s with
      | error e => rfl
      | ok x =>
        rw [answers_ok (r := x.1) (t := x.2) hi,List.length_cons] at hn
        exact ih x.1 (Nat.lt_of_succ_lt_succ hn)

theorem answers_prefix {R : σ → List γ → Prop} {h : Handler ι (List γ) ε σ}
    (takes : ∀ i s xs r s', R s xs → h i s = .ok (r,s') → ∃ rest, xs = r ++ rest ∧ R s' rest)
    (p : Prog ι (List γ) ε α) {s : σ} {xs : List γ} (hs : R s xs) :
    (p.answers h s).flatten <+: xs := by
  induction p generalizing s xs with
  | ret a => exact List.nil_prefix
  | fail e => exact List.nil_prefix
  | ask i k ih =>
    cases hi : h i s with
    | error e =>
      rw [answers_error hi]
      exact List.nil_prefix
    | ok x =>
      obtain ⟨rest,rfl,hrest⟩ := takes i s xs x.1 x.2 hs hi
      rw [answers_ok (r := x.1) (t := x.2) hi,List.flatten_cons]
      exact (List.prefix_append_right_inj x.1).mpr (ih x.1 hrest)

end Requests
