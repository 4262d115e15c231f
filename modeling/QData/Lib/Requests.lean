/-! Sequential programs that put requests to their surroundings, what two surroundings must
share for a program to behave alike in both, and what a program returns whatever it is
answered. -/
set_option autoImplicit false

namespace Requests

/-- A program returns, stops with an error, or makes a request and continues with
the answer. Every branch is finite, so running one needs no fuel. -/
inductive Prog (ι ρ ε α : Type) where
  | ret : α → Prog ι ρ ε α
  | fail : ε → Prog ι ρ ε α
  | ask : ι → (ρ → Prog ι ρ ε α) → Prog ι ρ ε α

variable {ι ρ ε α β σ τ : Type}

def Prog.bind : Prog ι ρ ε α → (α → Prog ι ρ ε β) → Prog ι ρ ε β
  | .ret a, f => f a
  | .fail e, _ => .fail e
  | .ask i k, f => .ask i (fun r => (k r).bind f)

instance : Monad (Prog ι ρ ε) where
  pure := Prog.ret
  bind := Prog.bind

def Prog.request (i : ι) : Prog ι ρ ε ρ := .ask i .ret

/-- Why a run has no value: an error, or a request that is not answered yet. -/
inductive Halt (ε : Type) where
  | error : ε → Halt ε
  | blocked : Halt ε
  deriving DecidableEq, Repr

/-- The surroundings: a request is answered from a state, or refused. -/
abbrev Handler (ι ρ ε σ : Type) := ι → σ → Except (Halt ε) (ρ × σ)

def Prog.run (h : Handler ι ρ ε σ) : Prog ι ρ ε α → σ → Except (Halt ε) (α × σ)
  | .ret a, s => .ok (a,s)
  | .fail e, _ => .error (.error e)
  | .ask i k, s =>
    match h i s with
    | .ok (r,s') => (k r).run h s'
    | .error e => .error e

@[simp] theorem run_pure (h : Handler ι ρ ε σ) (a : α) (s : σ) :
    (pure a : Prog ι ρ ε α).run h s = .ok (a,s) := rfl

@[simp] theorem run_ret (h : Handler ι ρ ε σ) (a : α) (s : σ) :
    (Prog.ret a : Prog ι ρ ε α).run h s = .ok (a,s) := rfl

@[simp] theorem run_fail (h : Handler ι ρ ε σ) (e : ε) (s : σ) :
    (Prog.fail e : Prog ι ρ ε α).run h s = .error (.error e) := rfl

@[simp] theorem run_request (h : Handler ι ρ ε σ) (i : ι) (s : σ) :
    (Prog.request i : Prog ι ρ ε ρ).run h s = h i s := by
  simp only [Prog.request,Prog.run]
  cases hi : h i s with
  | error e => rfl
  | ok x => rfl

theorem run_bind (h : Handler ι ρ ε σ) (p : Prog ι ρ ε α) (f : α → Prog ι ρ ε β) (s : σ) :
    (p >>= f).run h s =
      match p.run h s with
      | .ok (a,s') => (f a).run h s'
      | .error e => .error e := by
  change (p.bind f).run h s = _
  induction p generalizing s with
  | ret a => rfl
  | fail e => rfl
  | ask i k ih =>
    simp only [Prog.bind,Prog.run]
    cases hi : h i s with
    | error e => rfl
    | ok x => exact ih x.1 x.2

theorem run_bind_ok {h : Handler ι ρ ε σ} {p : Prog ι ρ ε α} {f : α → Prog ι ρ ε β}
    {s s' : σ} {a : α} (hp : p.run h s = .ok (a,s')) :
    (p >>= f).run h s = (f a).run h s' := by rw [run_bind,hp]

theorem run_bind_error {h : Handler ι ρ ε σ} {p : Prog ι ρ ε α} {f : α → Prog ι ρ ε β}
    {s : σ} {e : Halt ε} (hp : p.run h s = .error e) :
    (p >>= f).run h s = .error e := by rw [run_bind,hp]

theorem run_bind_eq_ok {h : Handler ι ρ ε σ} {p : Prog ι ρ ε α} {f : α → Prog ι ρ ε β}
    {s t : σ} {b : β} : (p >>= f).run h s = .ok (b,t) ↔
      ∃ a s', p.run h s = .ok (a,s') ∧ (f a).run h s' = .ok (b,t) := by
  rw [run_bind]
  constructor
  · intro hr
    cases hp : p.run h s with
    | error e => simp [hp] at hr
    | ok x => exact ⟨x.1,x.2,rfl,by simpa [hp] using hr⟩
  · rintro ⟨a,s',hp,hf⟩
    rw [hp]
    exact hf

theorem bind_assoc {γ : Type} (p : Prog ι ρ ε α) (f : α → Prog ι ρ ε β) (g : β → Prog ι ρ ε γ) :
    (p >>= f) >>= g = p >>= fun a => f a >>= g := by
  change (p.bind f).bind g = p.bind fun a => (f a).bind g
  induction p with
  | ret a => rfl
  | fail e => rfl
  | ask i k ih => exact congrArg (Prog.ask i) (funext ih)

/-- Two results correspond: the same value in related states, or related halts. -/
def Related (R : σ → τ → Prop) (E : Halt ε → Halt ε → Prop) :
    Except (Halt ε) (α × σ) → Except (Halt ε) (α × τ) → Prop
  | .ok (a,s), .ok (b,t) => a = b ∧ R s t
  | .error e, .error e' => E e e'
  | _, _ => False

theorem Related.ok_left {R : σ → τ → Prop} {E : Halt ε → Halt ε → Prop}
    {y : Except (Halt ε) (α × τ)} {a : α} {s : σ} (h : Related R E (.ok (a,s)) y) :
    ∃ t, y = .ok (a,t) ∧ R s t := by
  cases y with
  | error e => cases h
  | ok y => exact ⟨y.2,by rw [h.1],h.2⟩

theorem Related.ok_right {R : σ → τ → Prop} {E : Halt ε → Halt ε → Prop}
    {x : Except (Halt ε) (α × σ)} {a : α} {t : τ} (h : Related R E x (.ok (a,t))) :
    ∃ s, x = .ok (a,s) ∧ R s t := by
  cases x with
  | error e => cases h
  | ok x => exact ⟨x.2,by rw [← h.1],h.2⟩

theorem Related.map_fst {R : σ → τ → Prop} {x : Except (Halt ε) (α × σ)}
    {y : Except (Halt ε) (α × τ)} (h : Related R Eq x y) : x.map Prod.fst = y.map Prod.fst := by
  cases x with
  | error e =>
    cases y with
    | error e' => exact congrArg Except.error h
    | ok y => cases h
  | ok x =>
    cases y with
    | error e' => cases h
    | ok y => exact congrArg Except.ok h.1

theorem Related.map_error {R : σ → τ → Prop} {f : Halt ε → Halt ε}
    {x : Except (Halt ε) (α × σ)} {y : Except (Halt ε) (α × τ)}
    (h : Related R (fun e e' => e' = f e) x y) :
    y.map Prod.fst = (x.map Prod.fst).mapError f := by
  cases x with
  | error e =>
    cases y with
    | error e' => exact congrArg Except.error h
    | ok y => cases h
  | ok x =>
    cases y with
    | error e' => cases h
    | ok y => exact congrArg Except.ok h.1.symm

/-- The left run halted for a reason that excuses it, or the two results correspond. -/
def Excused (B : Halt ε → Prop) (R : σ → τ → Prop) (E : Halt ε → Halt ε → Prop)
    (x : Except (Halt ε) (α × σ)) (y : Except (Halt ε) (α × τ)) : Prop :=
  (∃ e, x = .error e ∧ B e) ∨ Related R E x y

theorem Excused.of_ok {B : Halt ε → Prop} {R : σ → τ → Prop} {E : Halt ε → Halt ε → Prop}
    {a : α} {s : σ} {y : Except (Halt ε) (α × τ)} (h : Excused B R E (.ok (a,s)) y) :
    ∃ t, y = .ok (a,t) ∧ R s t := by
  rcases h with ⟨e,he,_⟩ | h
  · cases he
  · exact h.ok_left

theorem Excused.of_error {B : Halt ε → Prop} {R : σ → τ → Prop} {E : Halt ε → Halt ε → Prop}
    {e : Halt ε} {y : Except (Halt ε) (α × τ)} (h : Excused B R E (.error e) y) :
    B e ∨ ∃ e', y = .error e' ∧ E e e' := by
  rcases h with ⟨e',he,hb⟩ | h
  · cases he
    exact .inl hb
  · cases y with
    | error e' => exact .inr ⟨e',rfl,h⟩
    | ok y => cases h

def Prog.Asks (P : ι → Prop) : Prog ι ρ ε α → Prop
  | .ret _ | .fail _ => True
  | .ask i k => P i ∧ ∀ r, (k r).Asks P

theorem Prog.asks_any (p : Prog ι ρ ε α) : p.Asks fun _ => True := by
  induction p with
  | ret a => trivial
  | fail e => trivial
  | ask i k ih => exact ⟨trivial,ih⟩

theorem Prog.Asks.bind {P : ι → Prop} {p : Prog ι ρ ε α} {f : α → Prog ι ρ ε β}
    (hp : p.Asks P) (hf : ∀ a, (f a).Asks P) : (p >>= f).Asks P := by
  change (p.bind f).Asks P
  induction p with
  | ret a => exact hf a
  | fail e => trivial
  | ask i k ih => exact ⟨hp.1,fun r => ih r (hp.2 r)⟩

/-- Handlers that correspond unless excused on every request make every program correspond
unless excused. -/
theorem run_excused {B : Halt ε → Prop} {R : σ → τ → Prop} {E : Halt ε → Halt ε → Prop}
    {P : ι → Prop} {h₁ : Handler ι ρ ε σ} {h₂ : Handler ι ρ ε τ}
    (refl : ∀ e, E (.error e) (.error e))
    (step : ∀ i s t, P i → R s t → Excused B R E (h₁ i s) (h₂ i t))
    {p : Prog ι ρ ε α} (hp : p.Asks P) {s : σ} {t : τ} (hst : R s t) :
    Excused B R E (p.run h₁ s) (p.run h₂ t) := by
  induction p generalizing s t with
  | ret a => exact .inr ⟨rfl,hst⟩
  | fail e => exact .inr (refl e)
  | ask i k ih =>
    have hs := step i s t hp.1 hst
    simp only [Prog.run]
    cases h : h₁ i s with
    | error e =>
      rw [h] at hs
      rcases hs.of_error with hb | ⟨e',he,hee⟩
      · exact .inl ⟨e,rfl,hb⟩
      · rw [he]
        exact .inr hee
    | ok x =>
      rw [h] at hs
      obtain ⟨t',ht,hst'⟩ := hs.of_ok
      rw [ht]
      exact ih x.1 (hp.2 x.1) hst'

theorem run_related_asks {R : σ → τ → Prop} {E : Halt ε → Halt ε → Prop} {P : ι → Prop}
    {h₁ : Handler ι ρ ε σ} {h₂ : Handler ι ρ ε τ}
    (refl : ∀ e, E (.error e) (.error e))
    (step : ∀ i s t, P i → R s t → Related R E (h₁ i s) (h₂ i t))
    {p : Prog ι ρ ε α} (hp : p.Asks P) {s : σ} {t : τ} (hst : R s t) :
    Related R E (p.run h₁ s) (p.run h₂ t) := by
  have h := run_excused (B := fun _ => False) refl
    (fun i s t hi hst => .inr (step i s t hi hst)) hp hst
  exact h.resolve_left fun ⟨_,_,hb⟩ => hb

/-- Handlers that correspond on every request make every program correspond. -/
theorem run_related {R : σ → τ → Prop} {E : Halt ε → Halt ε → Prop}
    {h₁ : Handler ι ρ ε σ} {h₂ : Handler ι ρ ε τ}
    (refl : ∀ e, E (.error e) (.error e))
    (step : ∀ i s t, R s t → Related R E (h₁ i s) (h₂ i t))
    (p : Prog ι ρ ε α) {s : σ} {t : τ} (hst : R s t) :
    Related R E (p.run h₁ s) (p.run h₂ t) :=
  run_related_asks refl (fun i s t _ hst => step i s t hst) p.asks_any hst

def Prog.answers (h : Handler ι ρ ε σ) : Prog ι ρ ε α → σ → List ρ
  | .ret _, _ | .fail _, _ => []
  | .ask i k, s =>
    match h i s with
    | .ok (r,s') => r :: (k r).answers h s'
    | .error _ => []

theorem answers_ok {h : Handler ι ρ ε σ} {i : ι} {k : ρ → Prog ι ρ ε α} {s t : σ} {r : ρ}
    (hi : h i s = .ok (r,t)) :
    (Prog.ask i k).answers h s = r :: (k r).answers h t := by
  simp only [Prog.answers,hi]

theorem answers_error {h : Handler ι ρ ε σ} {i : ι} {k : ρ → Prog ι ρ ε α} {s : σ}
    {e : Halt ε} (hi : h i s = .error e) : (Prog.ask i k).answers h s = [] := by
  simp only [Prog.answers,hi]

theorem answers_excused {B : Halt ε → Prop} {R : σ → τ → Prop} {E : Halt ε → Halt ε → Prop}
    {P : ι → Prop} {h₁ : Handler ι ρ ε σ} {h₂ : Handler ι ρ ε τ}
    (step : ∀ i s t, P i → R s t → Excused B R E (h₁ i s) (h₂ i t))
    {p : Prog ι ρ ε α} (hp : p.Asks P) {s : σ} {t : τ} (hst : R s t) :
    ∃ more, p.answers h₂ t = p.answers h₁ s ++ more := by
  induction p generalizing s t with
  | ret a => exact ⟨[],rfl⟩
  | fail e => exact ⟨[],rfl⟩
  | ask i k ih =>
    cases h : h₁ i s with
    | error e => exact ⟨_,by rw [answers_error h,List.nil_append]⟩
    | ok x =>
      obtain ⟨r,s'⟩ := x
      have hs := step i s t hp.1 hst
      rw [h] at hs
      obtain ⟨t',ht,hst'⟩ := hs.of_ok
      obtain ⟨more,hmore⟩ := ih r (hp.2 r) hst'
      exact ⟨more,by rw [answers_ok h,answers_ok ht,hmore,List.cons_append]⟩

theorem answers_related {R : σ → τ → Prop} {E : Halt ε → Halt ε → Prop} {P : ι → Prop}
    {h₁ : Handler ι ρ ε σ} {h₂ : Handler ι ρ ε τ}
    (step : ∀ i s t, P i → R s t → Related R E (h₁ i s) (h₂ i t))
    {p : Prog ι ρ ε α} (hp : p.Asks P) {s : σ} {t : τ} (hst : R s t) :
    p.answers h₁ s = p.answers h₂ t := by
  induction p generalizing s t with
  | ret a => rfl
  | fail e => rfl
  | ask i k ih =>
    have hs := step i s t hp.1 hst
    cases h : h₁ i s with
    | error e =>
      cases h' : h₂ i t with
      | error e' => rw [answers_error h,answers_error h']
      | ok y => rw [h,h'] at hs; cases hs
    | ok x =>
      rw [h] at hs
      obtain ⟨t',ht,hst'⟩ := hs.ok_left
      rw [answers_ok (r := x.1) (t := x.2) h,answers_ok ht,ih x.1 (hp.2 x.1) hst']

def Refines (R : σ → τ → Prop) (x : Except (Halt ε) (α × σ)) (y : Except (Halt ε) (α × τ)) :
    Prop :=
  ∀ a s, x = .ok (a,s) → ∃ t, y = .ok (a,t) ∧ R s t

theorem run_refines {R : σ → τ → Prop} {h₁ : Handler ι ρ ε σ} {h₂ : Handler ι ρ ε τ}
    (step : ∀ i s t, R s t → Refines R (h₁ i s) (h₂ i t))
    (p : Prog ι ρ ε α) {s : σ} {t : τ} (hst : R s t) :
    Refines R (p.run h₁ s) (p.run h₂ t) := by
  induction p generalizing s t with
  | ret a =>
    intro b s' h
    cases h
    exact ⟨t,rfl,hst⟩
  | fail e =>
    intro b s' h
    cases h
  | ask i k ih =>
    intro b s' hr
    simp only [Prog.run] at hr
    cases h : h₁ i s with
    | error e => simp [h] at hr
    | ok x =>
      obtain ⟨t',ht,hst'⟩ := step i s t hst x.1 x.2 h
      simp only [h] at hr
      obtain ⟨u,hu,hru⟩ := ih x.1 hst' b s' hr
      exact ⟨u,by simp only [Prog.run,ht]; exact hu,hru⟩

theorem run_keeps {I : σ → Prop} {h : Handler ι ρ ε σ}
    (step : ∀ i s r s', I s → h i s = .ok (r,s') → I s')
    (p : Prog ι ρ ε α) {s s' : σ} {a : α} (hs : I s) (hr : p.run h s = .ok (a,s')) : I s' := by
  have hstep : ∀ i s t, s = t ∧ I s → Refines (fun s t => s = t ∧ I s) (h i s) (h i t) := by
    rintro i s t ⟨rfl,hi⟩ r s' hans
    exact ⟨s',hans,rfl,step i s r s' hi hans⟩
  obtain ⟨t,_,_,ht⟩ := run_refines hstep p ⟨rfl,hs⟩ a s' hr
  exact ht

/-! What a program returns, whatever it is answered: conditions on values that need only a
condition on the answers. -/

/-- Every value the program returns satisfies `Q`, as long as each answer is one that its
request admits. -/
def Prog.Ensures (A : ι → ρ → Prop) (Q : α → Prop) : Prog ι ρ ε α → Prop
  | .ret a => Q a
  | .fail _ => True
  | .ask i k => ∀ r, A i r → (k r).Ensures A Q

theorem Prog.ensures_true {A : ι → ρ → Prop} (p : Prog ι ρ ε α) :
    p.Ensures A fun _ => True := by
  induction p with
  | ret a => trivial
  | fail e => trivial
  | ask i k ih => exact fun r _ => ih r

theorem Prog.Ensures.mono {A : ι → ρ → Prop} {P Q : α → Prop} {p : Prog ι ρ ε α}
    (h : p.Ensures A P) (hpq : ∀ a, P a → Q a) : p.Ensures A Q := by
  induction p with
  | ret a => exact hpq a h
  | fail e => trivial
  | ask i k ih => exact fun r hr => ih r (h r hr)

theorem Prog.Ensures.bind {A : ι → ρ → Prop} {P : α → Prop} {Q : β → Prop}
    {p : Prog ι ρ ε α} {f : α → Prog ι ρ ε β} (h : p.Ensures A P)
    (hf : ∀ a, P a → (f a).Ensures A Q) : (p >>= f).Ensures A Q := by
  change (p.bind f).Ensures A Q
  induction p with
  | ret a => exact hf a h
  | fail e => trivial
  | ask i k ih => exact fun r hr => ih r (h r hr)

/-- Surroundings that answer as admitted get what the program ensures. -/
theorem run_ensures {A : ι → ρ → Prop} {Q : α → Prop} {h : Handler ι ρ ε σ}
    (ha : ∀ i s r s', h i s = .ok (r,s') → A i r) {p : Prog ι ρ ε α} (hp : p.Ensures A Q)
    {s s' : σ} {a : α} (hr : p.run h s = .ok (a,s')) : Q a := by
  induction p generalizing s with
  | ret b =>
    cases hr
    exact hp
  | fail e => cases hr
  | ask i k ih =>
    simp only [Prog.run] at hr
    cases hi : h i s with
    | error e => simp [hi] at hr
    | ok x =>
      simp only [hi] at hr
      exact ih x.1 (hp x.1 (ha i s x.1 x.2 hi)) hr

/-- As long as each answer is one that its request admits, every request satisfies `P` and
every value `Q`. -/
def Prog.Meets (A : ι → ρ → Prop) (P : ι → Prop) (Q : α → Prop) : Prog ι ρ ε α → Prop
  | .ret a => Q a
  | .fail _ => True
  | .ask i k => P i ∧ ∀ r, A i r → (k r).Meets A P Q

section
variable {A : ι → ρ → Prop} {P : ι → Prop} {Q : α → Prop} {p : Prog ι ρ ε α}

theorem Prog.Meets.ensures (h : p.Meets A P Q) : p.Ensures A Q := by
  induction p with
  | ret a => exact h
  | fail e => trivial
  | ask i k ih => exact fun r hr => ih r (h.2 r hr)

theorem Prog.Asks.meets (h : p.Asks P) : p.Meets A P fun _ => True := by
  induction p with
  | ret a => trivial
  | fail e => trivial
  | ask i k ih => exact ⟨h.1,fun r _ => ih r (h.2 r)⟩

theorem Prog.Meets.mono {R : α → Prop} (h : p.Meets A P Q) (hqr : ∀ a, Q a → R a) :
    p.Meets A P R := by
  induction p with
  | ret a => exact hqr a h
  | fail e => trivial
  | ask i k ih => exact ⟨h.1,fun r hr => ih r (h.2 r hr)⟩

theorem Prog.Meets.bind {R : β → Prop} {f : α → Prog ι ρ ε β} (h : p.Meets A P Q)
    (hf : ∀ a, Q a → (f a).Meets A P R) : (p >>= f).Meets A P R := by
  change (p.bind f).Meets A P R
  induction p with
  | ret a => exact hf a h
  | fail e => trivial
  | ask i k ih => exact ⟨h.1,fun r hr => ih r (h.2 r hr)⟩

end

def Prog.Vouches (P : ι → Prop) (Q : α → Prop) : Prog ι ρ ε α → Prop
  | .ret a => Q a
  | .fail _ => True
  | .ask i k => P i ∧ ∀ r, (k r).Vouches P Q

theorem Prog.Asks.vouches {P : ι → Prop} {p : Prog ι ρ ε α} (h : p.Asks P) :
    p.Vouches P fun _ => True := by
  induction p with
  | ret a => trivial
  | fail e => trivial
  | ask i k ih => exact ⟨h.1,fun r => ih r (h.2 r)⟩

theorem Prog.Vouches.asks {P : ι → Prop} {Q : α → Prop} {p : Prog ι ρ ε α}
    (h : p.Vouches P Q) : p.Asks P := by
  induction p with
  | ret a => trivial
  | fail e => trivial
  | ask i k ih => exact ⟨h.1,fun r => ih r (h.2 r)⟩

theorem Prog.Vouches.mono {P : ι → Prop} {Q R : α → Prop} {p : Prog ι ρ ε α}
    (h : p.Vouches P Q) (hqr : ∀ a, Q a → R a) : p.Vouches P R := by
  induction p with
  | ret a => exact hqr a h
  | fail e => trivial
  | ask i k ih => exact ⟨h.1,fun r => ih r (h.2 r)⟩

theorem Prog.Vouches.bind {P : ι → Prop} {Q : α → Prop} {R : β → Prop} {p : Prog ι ρ ε α}
    {f : α → Prog ι ρ ε β} (h : p.Vouches P Q) (hf : ∀ a, Q a → (f a).Vouches P R) :
    (p >>= f).Vouches P R := by
  change (p.bind f).Vouches P R
  induction p with
  | ret a => exact hf a h
  | fail e => trivial
  | ask i k ih => exact ⟨h.1,fun r => ih r (h.2 r)⟩

end Requests
