import QData.Lib.Requests
/-! Programs beside programs that make the same requests, which stretch of its input each part
of a program takes, and requests that must fit the place they are made at. -/
set_option autoImplicit false

namespace Requests

variable {ι κ ρ ε α β α' β' σ τ : Type}

def Prog.relabel (g : ι → κ) : Prog ι ρ ε α → Prog κ ρ ε α
  | .ret a => .ret a
  | .fail e => .fail e
  | .ask i k => .ask (g i) fun r => (k r).relabel g

theorem Prog.relabel_asks {P : κ → Prop} {g : ι → κ} (hg : ∀ i, P (g i)) (p : Prog ι ρ ε α) :
    (p.relabel g).Asks P := by
  induction p with
  | ret a => trivial
  | fail e => trivial
  | ask i k ih => exact ⟨hg i,ih⟩

/-- What `f` leaves of the requests is the other program's, and so are the errors; as long as
the answers are admitted, the values correspond. -/
def Prog.Mirrors (A : κ → ρ → Prop) (f : ι → κ) (R : α → β → Prop) :
    Prog ι ρ ε α → Prog κ ρ ε β → Prop
  | .ret a, .ret b => R a b
  | .fail e, .fail e' => e = e'
  | .ask i k, .ask j l => f i = j ∧ ∀ r, A j r → (k r).Mirrors A f R (l r)
  | _, _ => False

section
variable {A : κ → ρ → Prop} {f : ι → κ} {R : α → β → Prop}

theorem Prog.relabel_mirrors {g : κ → ι} (hg : ∀ j, f (g j) = j) (p : Prog κ ρ ε α) :
    (p.relabel g).Mirrors A f Eq p := by
  induction p with
  | ret a => exact rfl
  | fail e => exact rfl
  | ask j k ih => exact ⟨hg j,fun r _ => ih r⟩

theorem Prog.Mirrors.bind {S : α' → β' → Prop} {p : Prog ι ρ ε α} {q : Prog κ ρ ε β}
    {u : α → Prog ι ρ ε α'} {v : β → Prog κ ρ ε β'} (h : p.Mirrors A f R q)
    (huv : ∀ a b, R a b → (u a).Mirrors A f S (v b)) :
    (p >>= u).Mirrors A f S (q >>= v) := by
  change (p.bind u).Mirrors A f S (q.bind v)
  induction p generalizing q with
  | ret a =>
    cases q with
    | ret b => exact huv a b h
    | fail e => cases h
    | ask j l => cases h
  | fail e =>
    cases q with
    | ret b => cases h
    | fail e' => exact h
    | ask j l => cases h
  | ask i k ih =>
    cases q with
    | ret b => cases h
    | fail e' => cases h
    | ask j l => exact ⟨h.1,fun r hr => ih r (h.2 r hr)⟩

def Mirrored (R : α → β → Prop) :
    Except (Halt ε) (α × σ) → Except (Halt ε) (β × σ) → Prop
  | .ok (a,s), .ok (b,t) => R a b ∧ s = t
  | .error e, .error e' => e = e'
  | _, _ => False

theorem Mirrored.ok_left {a : α} {s : σ} {y : Except (Halt ε) (β × σ)}
    (h : Mirrored R (.ok (a,s)) y) : ∃ b, y = .ok (b,s) ∧ R a b := by
  cases y with
  | error e => cases h
  | ok y =>
    obtain ⟨hr,rfl⟩ := h
    exact ⟨y.1,rfl,hr⟩

theorem Mirrored.ok_right {b : β} {s : σ} {x : Except (Halt ε) (α × σ)}
    (h : Mirrored R x (.ok (b,s))) : ∃ a, x = .ok (a,s) ∧ R a b := by
  cases x with
  | error e => cases h
  | ok x =>
    obtain ⟨hr,rfl⟩ := h
    exact ⟨x.1,rfl,hr⟩

/-- Surroundings that answer as admitted, in the states they get into, and see the plain
requests only. -/
theorem run_mirrors {h : Handler κ ρ ε σ} {I : σ → Prop}
    (ha : ∀ j s r s', I s → h j s = .ok (r,s') → A j r ∧ I s')
    {p : Prog ι ρ ε α} {q : Prog κ ρ ε β} (hp : p.Mirrors A f R q) {s : σ} (hs : I s) :
    Mirrored R (p.run (fun i => h (f i)) s) (q.run h s) := by
  induction p generalizing q s with
  | ret a =>
    cases q with
    | ret b => exact ⟨hp,rfl⟩
    | fail e => cases hp
    | ask j l => cases hp
  | fail e =>
    cases q with
    | ret b => cases hp
    | fail e' => exact congrArg Halt.error hp
    | ask j l => cases hp
  | ask i k ih =>
    cases q with
    | ret b => cases hp
    | fail e' => cases hp
    | ask j l =>
      obtain ⟨rfl,hk⟩ := hp
      simp only [Prog.run]
      cases hr : h (f i) s with
      | error e => exact rfl
      | ok x =>
        obtain ⟨hadmitted,hx⟩ := ha _ _ _ _ hs hr
        exact ih x.1 (hk x.1 hadmitted) hx

end

/-! Which stretch of its input each part of a program takes, and programs that make the same
requests. -/

def Prog.Alike (R : α → β → Prop) : Prog ι ρ ε α → Prog ι ρ ε β → Prop
  | .ret a, .ret b => R a b
  | .fail e, .fail e' => e = e'
  | .ask i k, .ask j l => i = j ∧ ∀ r, (k r).Alike R (l r)
  | _, _ => False

theorem Prog.Alike.refl (p : Prog ι ρ ε α) : p.Alike Eq p := by
  induction p with
  | ret a => exact rfl
  | fail e => exact rfl
  | ask i k ih => exact ⟨rfl,ih⟩

theorem Prog.Alike.bind {R : α → β → Prop} {S : α' → β' → Prop} {p : Prog ι ρ ε α}
    {q : Prog ι ρ ε β} {f : α → Prog ι ρ ε α'} {g : β → Prog ι ρ ε β'} (h : p.Alike R q)
    (hf : ∀ a b, R a b → (f a).Alike S (g b)) : (p >>= f).Alike S (q >>= g) := by
  change (p.bind f).Alike S (q.bind g)
  induction p generalizing q with
  | ret a =>
    cases q with
    | ret b => exact hf a b h
    | fail e => cases h
    | ask j l => cases h
  | fail e =>
    cases q with
    | ret b => cases h
    | fail e' => exact h
    | ask j l => cases h
  | ask i k ih =>
    cases q with
    | ret b => cases h
    | fail e' => cases h
    | ask j l => exact ⟨h.1,fun r => ih r (h.2 r)⟩

theorem run_alike {R : α → β → Prop} {p : Prog ι ρ ε α} {q : Prog ι ρ ε β} (h : p.Alike R q)
    {hd : Handler ι ρ ε σ} {s s' : σ} {b : β} (hr : q.run hd s = .ok (b,s')) :
    ∃ a, p.run hd s = .ok (a,s') ∧ R a b := by
  induction p generalizing q s with
  | ret a =>
    cases q with
    | ret b' =>
      cases hr
      exact ⟨a,rfl,h⟩
    | fail e => cases hr
    | ask j l => cases h
  | fail e =>
    cases q with
    | ret b' => cases h
    | fail e' => cases hr
    | ask j l => cases h
  | ask i k ih =>
    cases q with
    | ret b' => cases h
    | fail e' => cases h
    | ask j l =>
      obtain ⟨rfl,hk⟩ := h
      simp only [Prog.run] at hr ⊢
      cases hi : hd i s with
      | error e => simp [hi] at hr
      | ok x =>
        simp only [hi] at hr
        exact ih x.1 (hk x.1) hr

def Prog.logged : Prog ι ρ ε α → Prog ι ρ ε (α × List ρ)
  | .ret a => .ret (a,[])
  | .fail e => .fail e
  | .ask i k => .ask i fun r => (k r).logged.bind fun x => .ret (x.1,r :: x.2)

theorem Prog.bind_ret (p : Prog ι ρ ε α) : p.bind .ret = p := by
  induction p with
  | ret a => rfl
  | fail e => rfl
  | ask i k ih => exact congrArg (Prog.ask i) (funext ih)

theorem Prog.logged_alike (p : Prog ι ρ ε α) : p.logged.Alike (fun x a => x.1 = a) p := by
  induction p with
  | ret a => exact rfl
  | fail e => exact rfl
  | ask i k ih =>
    refine ⟨rfl,fun r => ?_⟩
    have h : ((k r).logged.bind fun x => .ret (x.1,r :: x.2)).Alike (fun x a => x.1 = a)
        ((k r).bind .ret) := (ih r).bind fun x a hx => by exact hx
    rwa [Prog.bind_ret] at h

section
variable {γ : Type} {h : Handler ι (List γ) ε (List γ)}

/-- With `before` already taken from the front, the program takes more, and its value goes
with all that was taken. -/
def Prog.Spans (h : Handler ι (List γ) ε (List γ)) (before : List γ) (Q : α → List γ → Prop)
    (p : Prog ι (List γ) ε α) : Prop :=
  ∀ s a s', p.run h s = .ok (a,s') → ∃ taken, s = taken ++ s' ∧ Q a (before ++ taken)

theorem Prog.Spans.pure {before : List γ} {Q : α → List γ → Prop} {a : α} (hq : Q a before) :
    (pure a : Prog ι (List γ) ε α).Spans h before Q := by
  rintro s _ _ ⟨⟩
  exact ⟨[],rfl,by rwa [List.append_nil]⟩

theorem Prog.Spans.fail {before : List γ} {Q : α → List γ → Prop} (e : ε) :
    (Prog.fail e : Prog ι (List γ) ε α).Spans h before Q := by
  rintro s _ _ ⟨⟩

theorem Prog.Spans.bind {before : List γ} {P : α → List γ → Prop} {Q : β → List γ → Prop}
    {p : Prog ι (List γ) ε α} {f : α → Prog ι (List γ) ε β} (hp : p.Spans h before P)
    (hf : ∀ a taken, P a taken → (f a).Spans h taken Q) : (p >>= f).Spans h before Q := by
  intro s b s' hr
  obtain ⟨a,t,hpr,hfr⟩ := run_bind_eq_ok.mp hr
  obtain ⟨xs,rfl,hP⟩ := hp s a t hpr
  obtain ⟨ys,rfl,hQ⟩ := hf a _ hP t b s' hfr
  exact ⟨xs ++ ys,by rw [List.append_assoc],by rwa [← List.append_assoc]⟩

theorem run_logged (hh : ∀ i s r s', h i s = .ok (r,s') →
    s = r ++ s' ∧ ∀ more, h i (r ++ more) = .ok (r,more)) (p : Prog ι (List γ) ε α)
    {s s' : List γ} {a : α} {log : List (List γ)} (hr : p.logged.run h s = .ok ((a,log),s')) :
    s = log.flatten ++ s' ∧ ∀ more, p.run h (log.flatten ++ more) = .ok (a,more) := by
  induction p generalizing s log with
  | ret a =>
    cases hr
    exact ⟨rfl,fun _ => rfl⟩
  | fail e => cases hr
  | ask i k ih =>
    simp only [Prog.logged,Prog.run] at hr
    cases hi : h i s with
    | error e => simp [hi] at hr
    | ok x =>
      obtain ⟨r,t⟩ := x
      simp only [hi] at hr
      obtain ⟨y,t',hy,hret⟩ := run_bind_eq_ok.mp hr
      cases hret
      obtain ⟨hs,hagain⟩ := hh i s r t hi
      obtain ⟨ht,hmore⟩ := ih r hy
      refine ⟨by rw [hs,ht,List.flatten_cons,List.append_assoc],fun more => ?_⟩
      rw [List.flatten_cons,List.append_assoc,Prog.run,hagain]
      exact hmore more

theorem Prog.Spans.logged (hh : ∀ i s r s', h i s = .ok (r,s') →
    s = r ++ s' ∧ ∀ more, h i (r ++ more) = .ok (r,more)) (p : Prog ι (List γ) ε α)
    (before : List γ) :
    p.logged.Spans h before fun x taken => taken = before ++ x.2.flatten ∧
      ∀ more, p.run h (x.2.flatten ++ more) = .ok (x.1,more) := by
  intro s x s' hr
  obtain ⟨hs,hagain⟩ := run_logged hh p hr
  exact ⟨x.2.flatten,hs,rfl,hagain⟩

end

/-! Requests that must fit where they are made: surroundings that answer as others do, but
only as long as each request fits the place the earlier ones lead to. -/

def Prog.asked (h : Handler ι ρ ε σ) : Prog ι ρ ε α → σ → List ι
  | .ret _, _ | .fail _, _ => []
  | .ask i k, s =>
    i :: match h i s with
      | .ok (r,s') => (k r).asked h s'
      | .error _ => []

theorem asked_ok {h : Handler ι ρ ε σ} {i : ι} {k : ρ → Prog ι ρ ε α} {s t : σ} {r : ρ}
    (hi : h i s = .ok (r,t)) : (Prog.ask i k).asked h s = i :: (k r).asked h t := by
  simp only [Prog.asked,hi]

theorem asked_refines {R : σ → τ → Prop} {h₁ : Handler ι ρ ε σ} {h₂ : Handler ι ρ ε τ}
    (step : ∀ i s t, R s t → Refines R (h₁ i s) (h₂ i t)) (p : Prog ι ρ ε α) {s s' : σ} {t : τ}
    {a : α} (hst : R s t) (hr : p.run h₁ s = .ok (a,s')) : p.asked h₂ t = p.asked h₁ s := by
  induction p generalizing s t with
  | ret a => rfl
  | fail e => rfl
  | ask i k ih =>
    simp only [Prog.run] at hr
    cases h : h₁ i s with
    | error e => simp [h] at hr
    | ok x =>
      simp only [h] at hr
      obtain ⟨t',ht,hst'⟩ := step i s t hst x.1 x.2 h
      rw [asked_ok (r := x.1) (t := x.2) h,asked_ok ht,ih x.1 hst' hr]

def AllFit (fits : κ → ι → Prop) (move : κ → ι → κ) : κ → List ι → Prop
  | _, [] => True
  | p, i :: is => fits p i ∧ AllFit fits move (move p i) is

/-- The left succeeds exactly when the right does and the condition holds, with the same
value and in related states. -/
structure Permitted (fits : Prop) (R : σ → τ → Prop) (x : Except (Halt ε) (α × σ))
    (y : Except (Halt ε) (α × τ)) : Prop where
  sound : Refines R x y
  fit : ∀ a s, x = .ok (a,s) → fits
  complete : fits → ∀ a t, y = .ok (a,t) → ∃ s, x = .ok (a,s) ∧ R s t

/-- If every request is permitted where it fits, a program is permitted where all its
requests fit. -/
theorem run_permitted {fits : κ → ι → Prop} {move : κ → ι → κ} {P : ι → Prop}
    {R : κ → σ → τ → Prop} {h₁ : Handler ι ρ ε σ} {h₂ : Handler ι ρ ε τ}
    (step : ∀ p i s t, P i → R p s t →
      Permitted (fits p i) (R (move p i)) (h₁ i s) (h₂ i t))
    {p : Prog ι ρ ε α} (hp : p.Asks P) {k : κ} {s : σ} {t : τ} (hst : R k s t) :
    Permitted (AllFit fits move k (p.asked h₂ t)) (fun s t => ∃ k, R k s t)
      (p.run h₁ s) (p.run h₂ t) := by
  induction p generalizing k s t with
  | ret a =>
    refine ⟨fun b u h => ?_,fun b u h => trivial,fun _ b u h => ?_⟩ <;> cases h
    · exact ⟨t,rfl,k,hst⟩
    · exact ⟨s,rfl,k,hst⟩
  | fail e =>
    refine ⟨fun b u h => ?_,fun b u h => ?_,fun _ b u h => ?_⟩ <;> cases h
  | ask i f ih =>
    have hi := step k i s t hp.1 hst
    refine ⟨fun b u h => ?_,fun b u h => ?_,fun hall b u h => ?_⟩
    · simp only [Prog.run] at h
      cases hx : h₁ i s with
      | error e => simp [hx] at h
      | ok x =>
        simp only [hx] at h
        obtain ⟨t',ht,hst'⟩ := hi.sound _ _ hx
        simp only [Prog.run,ht]
        exact (ih x.1 (hp.2 x.1) hst').sound b u h
    · simp only [Prog.run] at h
      cases hx : h₁ i s with
      | error e => simp [hx] at h
      | ok x =>
        simp only [hx] at h
        obtain ⟨t',ht,hst'⟩ := hi.sound _ _ hx
        rw [asked_ok ht]
        exact ⟨hi.fit _ _ hx,(ih x.1 (hp.2 x.1) hst').fit b u h⟩
    · simp only [Prog.run] at h
      cases hy : h₂ i t with
      | error e => simp [hy] at h
      | ok y =>
        simp only [hy] at h
        rw [asked_ok (r := y.1) (t := y.2) hy] at hall
        obtain ⟨s',hs,hst'⟩ := hi.complete hall.1 _ _ hy
        simp only [Prog.run,hs]
        exact (ih y.1 (hp.2 y.1) hst').complete hall.2 b u h

end Requests
