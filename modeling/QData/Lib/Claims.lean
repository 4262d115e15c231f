import QData.Lib.Spans
/-! Programs that claim something on their way and may be denied it, and what a program claims
where its requests are answered. -/
set_option autoImplicit false

namespace Requests

variable {ι κ ρ ε α β γ σ τ π : Type}

def Prog.Confined (P : ι → Prop) (Q : ε → Prop) : Prog ι ρ ε α → Prop
  | .ret _ => True
  | .fail e => Q e
  | .ask i k => P i ∧ ∀ r, (k r).Confined P Q

section
variable {P : ι → Prop} {Q : ε → Prop}

theorem Prog.Confined.bind {p : Prog ι ρ ε α} {f : α → Prog ι ρ ε β} (hp : p.Confined P Q)
    (hf : ∀ a, (f a).Confined P Q) : (p >>= f).Confined P Q := by
  change (p.bind f).Confined P Q
  induction p with
  | ret a => exact hf a
  | fail e => exact hp
  | ask i k ih => exact ⟨hp.1,fun r => ih r (hp.2 r)⟩

end

/-! Where a program fails of its own accord. -/

section
variable (fits : π → ι → Prop) (move : π → ι → π)

/-- Every request fits and is answered, until the program fails with such an error. -/
def Prog.FailsAt (E : ε → Prop) (h : Handler ι ρ ε σ) : Prog ι ρ ε α → π → σ → Prop
  | .ret _, _, _ => False
  | .fail e, _, _ => E e
  | .ask i k, x, s => fits x i ∧ ∃ r t, h i s = .ok (r,t) ∧ (k r).FailsAt E h (move x i) t

variable {fits move}

/-- Surroundings that answer where a request fits, and have no such errors themselves, let a
program fail exactly where it fails in the others. -/
theorem run_failsAt {E : ε → Prop} {P : ι → Prop} {R : π → σ → τ → Prop}
    {h₁ : Handler ι ρ ε σ} {h₂ : Handler ι ρ ε τ}
    (step : ∀ x i s t, P i → R x s t → Permitted (fits x i) (R (move x i)) (h₁ i s) (h₂ i t))
    (refuses : ∀ x i s t e, R x s t → h₁ i s = .error (.error e) → ¬ E e)
    {p : Prog ι ρ ε α} (hp : p.Asks P)
    {x : π} {s : σ} {t : τ} (hst : R x s t) :
    (∃ e, E e ∧ p.run h₁ s = .error (.error e)) ↔ p.FailsAt fits move E h₂ x t := by
  induction p generalizing x s t with
  | ret a =>
    constructor
    · rintro ⟨e,_,h⟩
      cases h
    · exact False.elim
  | fail e =>
    constructor
    · rintro ⟨e',he,h⟩
      cases h
      exact he
    · exact fun he => ⟨e,he,rfl⟩
  | ask i k ih =>
    have hi := step x i s t hp.1 hst
    simp only [Prog.run,Prog.FailsAt]
    constructor
    · rintro ⟨e,he,h⟩
      cases hx : h₁ i s with
      | error e' =>
        simp only [hx] at h
        cases h
        exact absurd he (refuses x i s t e hst hx)
      | ok r =>
        simp only [hx] at h
        obtain ⟨t',ht,hst'⟩ := hi.sound _ _ hx
        exact ⟨hi.fit _ _ hx,_,_,ht,(ih r.1 (hp.2 r.1) hst').mp ⟨e,he,h⟩⟩
    · rintro ⟨hfits,r,t',ht,hfails⟩
      obtain ⟨s',hs,hst'⟩ := hi.complete hfits _ _ ht
      obtain ⟨e,he,h⟩ := (ih r (hp.2 r) hst').mpr hfails
      exact ⟨e,he,by rw [hs]; exact h⟩

end

/-! Claims stand among the requests. They are answered with nothing, or denied. -/

def Prog.claim (c : κ) : Prog (ι ⊕ κ) (List γ) ε Unit := .ask (.inr c) fun _ => .ret ()

def Prog.claimless (p : Prog ι (List γ) ε α) : Prog (ι ⊕ κ) (List γ) ε α := p.relabel .inl

/-- Each claim is decided in view of those made before it. -/
def Prog.settle (denied : List κ → κ → Option ε) (past : List κ) :
    Prog (ι ⊕ κ) (List γ) ε α → Prog ι (List γ) ε α
  | .ret a => .ret a
  | .fail e => .fail e
  | .ask (.inl i) k => .ask i fun r => (k r).settle denied past
  | .ask (.inr c) k =>
    match denied past c with
    | none => (k []).settle denied (past ++ [c])
    | some e => .fail e

def Granted (denied : List κ → κ → Option ε) (past : List κ) : List κ → Prop
  | [] => True
  | c :: cs => denied past c = none ∧ Granted denied (past ++ [c]) cs

theorem cons_of_not_granted {denied : List κ → κ → Option ε} {past cs : List κ}
    (h : ¬ Granted denied past cs) : ∃ c more, cs = c :: more := by
  cases cs with
  | nil => exact absurd trivial h
  | cons c more => exact ⟨c,more,rfl⟩

def Prog.judge (denied : κ → Option ε) : Prog (ι ⊕ κ) (List γ) ε α → Prog ι (List γ) ε α
  | .ret a => .ret a
  | .fail e => .fail e
  | .ask (.inl i) k => .ask i fun r => (k r).judge denied
  | .ask (.inr c) k =>
    match denied c with
    | none => (k []).judge denied
    | some e => .fail e

theorem settle_judge {denied : List κ → κ → Option ε} {judged : κ → Option ε}
    (h : ∀ past c, denied past c = judged c) (past : List κ)
    (p : Prog (ι ⊕ κ) (List γ) ε α) : p.settle denied past = p.judge judged := by
  induction p generalizing past with
  | ret a => rfl
  | fail e => rfl
  | ask i k ih =>
    cases i with
    | inl i => exact congrArg (Prog.ask i) (funext fun r => ih r past)
    | inr c =>
      simp only [Prog.settle,Prog.judge,h]
      cases judged c with
      | none => exact ih [] _
      | some e => rfl

section
variable {denied : κ → Option ε}

theorem judge_bind {p : Prog (ι ⊕ κ) (List γ) ε α} {q : Prog ι (List γ) ε α}
    {f : α → Prog (ι ⊕ κ) (List γ) ε β} {g : α → Prog ι (List γ) ε β}
    (hp : p.judge denied = q) (hf : ∀ a, (f a).judge denied = g a) :
    (p >>= f).judge denied = q >>= g := by
  subst hp
  change (p.bind f).judge denied = (p.judge denied).bind g
  induction p with
  | ret a => exact hf a
  | fail e => rfl
  | ask i k ih =>
    cases i with
    | inl i => exact congrArg (Prog.ask i) (funext ih)
    | inr c =>
      simp only [Prog.bind,Prog.judge]
      cases denied c with
      | none => exact ih []
      | some e => rfl

theorem judge_claim {c : κ} {f : Unit → Prog (ι ⊕ κ) (List γ) ε α} (h : denied c = none) :
    (Prog.claim c >>= f).judge denied = (f ()).judge denied := by
  change Prog.judge denied (.ask (.inr c) fun _ => f ()) = _
  simp only [Prog.judge,h]

theorem judge_claim_denied {c : κ} {f : Unit → Prog (ι ⊕ κ) (List γ) ε α} {e : ε}
    (h : denied c = some e) : (Prog.claim c >>= f).judge denied = .fail e := by
  change Prog.judge denied (.ask (.inr c) fun _ => f ()) = _
  simp only [Prog.judge,h]

@[simp] theorem judge_claimless (p : Prog ι (List γ) ε α) :
    (p.claimless : Prog (ι ⊕ κ) (List γ) ε α).judge denied = p := by
  induction p with
  | ret a => rfl
  | fail e => rfl
  | ask i k ih => exact congrArg (Prog.ask i) (funext ih)

end

section
variable {P : ι → Prop} {Q : ε → Prop}

abbrev Besides (P : ι → Prop) : ι ⊕ κ → Prop := Sum.elim P fun _ => True

theorem Prog.Confined.claimless {p : Prog ι (List γ) ε α} (h : p.Confined P Q) :
    (p.claimless : Prog (ι ⊕ κ) (List γ) ε α).Confined (Besides P) Q := by
  induction p with
  | ret a => trivial
  | fail e => exact h
  | ask i k ih => exact ⟨h.1,fun r => ih r (h.2 r)⟩

theorem Prog.Confined.settle_asks {p : Prog (ι ⊕ κ) (List γ) ε α}
    (h : p.Confined (Besides P) Q) (denied : List κ → κ → Option ε) (past : List κ) :
    (p.settle denied past).Asks P := by
  induction p generalizing past with
  | ret a => trivial
  | fail e => trivial
  | ask i k ih =>
    cases i with
    | inl i => exact ⟨h.1,fun r => ih r (h.2 r) past⟩
    | inr c =>
      simp only [Prog.settle]
      cases denied past c with
      | none => exact ih [] (h.2 []) _
      | some e => trivial

end

section
variable (fits : π → ι → Prop) (move : π → ι → π) (h : Handler ι (List γ) ε σ)

/-- The claims that a program makes in a row, some at its beginning or all, where every
request fits and is answered and nothing is denied. -/
def Prog.Makes : Prog (ι ⊕ κ) (List γ) ε α → π → σ → List κ → Prop
  | _, _, _, [] => True
  | .ret _, _, _, _ :: _ | .fail _, _, _, _ :: _ => False
  | .ask (.inl i) k, x, s, c :: cs =>
      fits x i ∧ ∃ r t, h i s = .ok (r,t) ∧ (k r).Makes (move x i) t (c :: cs)
  | .ask (.inr c') k, x, s, c :: cs => c = c' ∧ (k []).Makes x s cs

variable {fits move h}

@[simp] theorem makes_nil (p : Prog (ι ⊕ κ) (List γ) ε α) (x : π) (s : σ) :
    p.Makes fits move h x s [] := by
  unfold Prog.Makes
  trivial

theorem makes_claim {c c' : κ} {f : Unit → Prog (ι ⊕ κ) (List γ) ε α} {x : π} {s : σ}
    {cs : List κ} : (Prog.claim c' >>= f).Makes fits move h x s (c :: cs) ↔
      c = c' ∧ (f ()).Makes fits move h x s cs := Iff.rfl

theorem makes_claimless {q : Prog ι (List γ) ε α} {f : α → Prog (ι ⊕ κ) (List γ) ε β}
    {x : π} {s : σ} {c : κ} {cs : List κ} :
    (q.claimless >>= f).Makes fits move h x s (c :: cs) ↔
      ∃ a t, q.run h s = .ok (a,t) ∧ AllFit fits move x (q.asked h s) ∧
        (f a).Makes fits move h ((q.asked h s).foldl move x) t (c :: cs) := by
  change (q.claimless.bind f).Makes fits move h x s (c :: cs) ↔ _
  induction q generalizing x s with
  | ret a =>
    constructor
    · exact fun hm => ⟨a,s,rfl,trivial,hm⟩
    · rintro ⟨a,t,hr,_,hm⟩
      cases hr
      exact hm
  | fail e =>
    constructor
    · exact False.elim
    · rintro ⟨a,t,hr,_⟩
      cases hr
  | ask i k ih =>
    change (fits x i ∧ ∃ r t, h i s = .ok (r,t) ∧
      ((k r).claimless.bind f).Makes fits move h (move x i) t (c :: cs)) ↔ _
    constructor
    · rintro ⟨hfits,r,t,hi,hm⟩
      obtain ⟨a,t',hr,hall,hrest⟩ := (ih r).mp hm
      refine ⟨a,t',by simp only [Prog.run,hi]; exact hr,?_⟩
      rw [asked_ok hi]
      exact ⟨⟨hfits,hall⟩,hrest⟩
    · rintro ⟨a,t',hr,hall,hrest⟩
      simp only [Prog.run] at hr
      cases hi : h i s with
      | error e => simp [hi] at hr
      | ok r =>
        simp only [hi] at hr
        rw [asked_ok (r := r.1) (t := r.2) hi] at hall hrest
        exact ⟨hall.1,r.1,r.2,rfl,(ih r.1).mpr ⟨a,t',hr,hall.2,hrest⟩⟩

/-- A program whose own errors are of another kind fails with such an error exactly where one
of the claims it makes is denied. -/
theorem settle_failsAt {E : ε → Prop} {denied : List κ → κ → Option ε}
    (hd : ∀ past c e, denied past c = some e → E e) {P : ι ⊕ κ → Prop}
    {p : Prog (ι ⊕ κ) (List γ) ε α} (hp : p.Confined P fun e => ¬ E e) {past : List κ} {x : π}
    {s : σ} : (p.settle denied past).FailsAt fits move E h x s ↔
      ∃ cs, p.Makes fits move h x s cs ∧ ¬ Granted denied past cs := by
  induction p generalizing past x s with
  | ret a =>
    constructor
    · exact False.elim
    · rintro ⟨cs,hm,hg⟩
      obtain ⟨c,more,rfl⟩ := cons_of_not_granted hg
      exact hm
  | fail e =>
    constructor
    · exact fun he => absurd he hp
    · rintro ⟨cs,hm,hg⟩
      obtain ⟨c,more,rfl⟩ := cons_of_not_granted hg
      exact hm.elim
  | ask i k ih =>
    cases i with
    | inl i =>
      constructor
      · rintro ⟨hfits,r,t,hi,hf⟩
        obtain ⟨cs,hm,hg⟩ := (ih r (hp.2 r)).mp hf
        obtain ⟨c,more,rfl⟩ := cons_of_not_granted hg
        exact ⟨c :: more,⟨hfits,r,t,hi,hm⟩,hg⟩
      · rintro ⟨cs,hm,hg⟩
        obtain ⟨c,more,rfl⟩ := cons_of_not_granted hg
        obtain ⟨hfits,r,t,hi,hm⟩ := hm
        exact ⟨hfits,r,t,hi,(ih r (hp.2 r)).mpr ⟨_,hm,hg⟩⟩
    | inr c =>
      simp only [Prog.settle]
      cases hc : denied past c with
      | some e =>
        constructor
        · exact fun _ => ⟨[c],⟨rfl,makes_nil ..⟩,fun hg => by rw [hg.1] at hc; cases hc⟩
        · exact fun _ => hd past c e hc
      | none =>
        constructor
        · intro hf
          obtain ⟨cs,hm,hg⟩ := (ih [] (hp.2 [])).mp hf
          exact ⟨c :: cs,⟨rfl,hm⟩,fun hall => hg hall.2⟩
        · rintro ⟨cs,hm,hg⟩
          obtain ⟨c',more,rfl⟩ := cons_of_not_granted hg
          obtain ⟨rfl,hm⟩ := hm
          exact (ih [] (hp.2 [])).mpr ⟨more,hm,fun hall => hg ⟨hc,hall⟩⟩

end

end Requests
