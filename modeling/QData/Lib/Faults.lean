import QData.Lib.Requests
/-! Computations that check what they touch, and guards that count down whichever way they are
left. -/
set_option autoImplicit false

namespace Faults

inductive Fault (ε : Type) where
  | wild : Fault ε
  | thrown : ε → Fault ε
  deriving DecidableEq, Repr

abbrev Checked (ε α : Type) := Except (Fault ε) α

variable {ε α β γ σ : Type}

def check (p : Prop) [Decidable p] (a : α) : Checked ε α := if p then .ok a else .error .wild

def throwing (e : ε) : Checked ε α := .error (.thrown e)

/-- Returns only what is promised and never goes wild; it may throw. -/
def Safe (Q : α → Prop) : Checked ε α → Prop
  | .ok a => Q a
  | .error .wild => False
  | .error (.thrown _) => True

variable {P Q : α → Prop} {x : Checked ε α}

theorem Safe.check {p : Prop} [Decidable p] {a : α} (hp : p) (ha : Q a) :
    Safe Q (Faults.check p a : Checked ε α) := by
  rw [Faults.check,if_pos hp]
  exact ha

theorem Safe.throwing (e : ε) : Safe Q (Faults.throwing e : Checked ε α) := True.intro

theorem Safe.bind {R : β → Prop} {f : α → Checked ε β} (h : Safe P x)
    (hf : ∀ a, P a → Safe R (f a)) : Safe R (x >>= f) := by
  cases x with
  | ok a => exact hf a h
  | error e =>
    cases e with
    | wild => exact h.elim
    | thrown e => exact True.intro

theorem Safe.mono (h : Safe P x) (hpq : ∀ a, P a → Q a) : Safe Q x := by
  cases x with
  | ok a => exact hpq a h
  | error e =>
    cases e with
    | wild => exact h.elim
    | thrown e => exact True.intro

theorem Safe.of_error {R : β → Prop} {e : Fault ε} (h : Safe P (.error e : Checked ε α)) :
    Safe R (.error e : Checked ε β) := by
  cases e with
  | wild => exact h
  | thrown e => exact h

theorem Safe.not_wild (h : Safe Q x) : x ≠ .error .wild := by
  intro hx
  rw [hx] at h
  exact h

theorem Safe.of_ok {a : α} (h : Safe Q x) (hx : x = .ok a) : Q a := by
  rw [hx] at h
  exact h

@[simp] theorem ok_bind (a : α) (f : α → Checked ε β) :
    ((.ok a : Checked ε α) >>= f) = f a := rfl

@[simp] theorem error_bind (e : Fault ε) (f : α → Checked ε β) :
    ((.error e : Checked ε α) >>= f) = .error e := rfl

theorem bind_eq_ok {f : α → Checked ε β} {b : β} :
    x >>= f = .ok b ↔ ∃ a, x = .ok a ∧ f a = .ok b := by
  cases x with
  | ok a => simp [bind,Except.bind]
  | error e => simp [bind,Except.bind]

def runAll (step : γ → σ → Checked ε (α × σ)) : List γ → σ → Checked ε (List α × σ)
  | [], s => .ok ([],s)
  | call :: calls, s =>
      step call s >>= fun r => runAll step calls r.2 >>= fun rest => .ok (r.1 :: rest.1,rest.2)

/-- An invariant that every call keeps holds between the calls of any run. -/
theorem runAll_safe {step : γ → σ → Checked ε (α × σ)} {I : σ → Prop}
    (hstep : ∀ call s, I s → Safe (fun r => I r.2) (step call s)) (calls : List γ) {s : σ}
    (hs : I s) : Safe (fun r => I r.2) (runAll step calls s) := by
  induction calls generalizing s with
  | nil => exact hs
  | cons call calls ih =>
    unfold runAll
    exact (hstep call s hs).bind fun r hr => (ih hr).bind fun rest hrest => hrest

end Faults

/-! Scope guards over a counter with a limit, and what a tighter limit makes of a program. -/

namespace Scopes

variable {ω ω' : Type}

/-- Something that runs on a count of open scopes. An exception is a result like any
other: the guards it passes count down. -/
abbrev Counted (ω : Type) := StateM Nat ω

/-- The guard's constructor counts up or refuses; its destructor counts down, whichever way
the body ended. A refused guard was never constructed. -/
def guarded (limit : Nat) (refused : ω) (body : Counted ω) : Counted ω := do
  if (← get) ≥ limit then pure refused
  else
    modify (·+1)
    let r ← body
    modify (·-1)
    pure r

theorem run_guarded (limit : Nat) (refused : ω) (body : Counted ω) (n : Nat) :
    (guarded limit refused body).run n =
      if n ≥ limit then (refused,n) else ((body.run (n+1)).1,(body.run (n+1)).2-1) := by
  unfold guarded
  by_cases h : n ≥ limit
  · simp only [StateT.run_bind,StateT.run_get,pure_bind,h,if_true]
    rfl
  · simp only [StateT.run_bind,StateT.run_get,pure_bind,h,if_false]
    rfl

def Yields (m : Counted ω) (n : Nat) (r : ω) : Prop := m.run n = (r,n)

theorem Yields.pure (r : ω) (n : Nat) : Yields (pure r) n r := rfl

theorem Yields.bind {m : Counted ω} {f : ω → Counted ω'} {n : Nat} {r : ω} {r' : ω'}
    (hm : Yields m n r) (hf : Yields (f r) n r') : Yields (m >>= f) n r' := by
  rw [Yields,StateT.run_bind,hm]
  exact hf

theorem Yields.refused {limit n : Nat} (h : limit ≤ n) (r : ω) (body : Counted ω) :
    Yields (guarded limit r body) n r := by
  rw [Yields,run_guarded,if_pos h]

theorem Yields.entered {limit n : Nat} (h : n < limit) {r r' : ω} {body : Counted ω}
    (hb : Yields body (n+1) r) : Yields (guarded limit r' body) n r := by
  rw [Yields,run_guarded,if_neg (by omega),hb]
  rfl

end Scopes

namespace Requests

variable {ι ρ ε α β σ : Type}

/-- The second program is the first under a tighter limit: it returns the same where that is
within `Q`, and gives up with `e` before the first returns anything else. -/
inductive Prog.Clips (e : ε) (Q : α → Prop) : Prog ι ρ ε α → Prog ι ρ ε α → Prop
  | ret {a : α} (within : Q a) : Clips e Q (.ret a) (.ret a)
  | fail (e' : ε) : Clips e Q (.fail e') (.fail e')
  | ask {i : ι} {k l : ρ → Prog ι ρ ε α} (next : ∀ r, Clips e Q (k r) (l r)) :
      Clips e Q (.ask i k) (.ask i l)
  | stop {p : Prog ι ρ ε α} (beyond : p.Ensures (fun _ _ => True) fun a => ¬ Q a) :
      Clips e Q p (.fail e)

theorem Prog.Clips.refl (e : ε) (p : Prog ι ρ ε α) : p.Clips e (fun _ => True) p := by
  induction p with
  | ret a => exact .ret trivial
  | fail e' => exact .fail e'
  | ask i k ih => exact .ask ih

theorem Prog.Clips.bind {e : ε} {P : α → Prop} {Q : β → Prop} {p q : Prog ι ρ ε α}
    {f g : α → Prog ι ρ ε β} (h : p.Clips e P q) (within : ∀ a, P a → (f a).Clips e Q (g a))
    (beyond : ∀ a, ¬ P a → (f a).Ensures (fun _ _ => True) fun b => ¬ Q b) :
    (p >>= f).Clips e Q (q >>= g) := by
  induction h with
  | ret ha => exact within _ ha
  | fail e' => exact .fail e'
  | ask _ ih => exact .ask ih
  | stop hp => exact .stop (hp.bind beyond)

/-- In the same surroundings: what the first program returns, the second returns or gives
up over. -/
theorem run_clips {e : ε} {Q : α → Prop} {p q : Prog ι ρ ε α} (hc : p.Clips e Q q)
    {h : Handler ι ρ ε σ} {s s' : σ} {a : α} (hr : p.run h s = .ok (a,s')) :
    (Q a ∧ q.run h s = .ok (a,s')) ∨ (¬ Q a ∧ q.run h s = .error (.error e)) := by
  induction hc generalizing s with
  | ret ha =>
    cases hr
    exact .inl ⟨ha,rfl⟩
  | fail e' => cases hr
  | stop hp => exact .inr ⟨run_ensures (fun _ _ _ _ _ => trivial) hp hr,rfl⟩
  | ask _ ih =>
    simp only [Prog.run] at hr ⊢
    split at hr
    · exact ih _ hr
    · cases hr

theorem clips_run {e : ε} {Q : α → Prop} {p q : Prog ι ρ ε α} (hc : p.Clips e Q q)
    {h : Handler ι ρ ε σ} {s s' : σ} {a : α} (hr : q.run h s = .ok (a,s')) :
    Q a ∧ p.run h s = .ok (a,s') := by
  induction hc generalizing s with
  | ret ha =>
    cases hr
    exact ⟨ha,rfl⟩
  | fail e' => cases hr
  | stop hp => cases hr
  | ask _ ih =>
    simp only [Prog.run] at hr ⊢
    split at hr
    · exact ih _ hr
    · cases hr

end Requests
