import QData.Lib.Systems
/-! Buffers that are handed on and used again: who holds which, and what must still be found
in it. -/
set_option autoImplicit false

namespace Ledger
open Sequencing

variable {ι α : Type}

/-- A buffer in somebody's hands, with what it has to hold, if anything. -/
abbrev Entry (α : Type) := Nat × Option (List α)

def owns (entries : List (Entry α)) (b : Nat) : Nat := (entries.map Prod.fst).count b

@[simp] theorem owns_nil (b : Nat) : owns ([] : List (Entry α)) b = 0 := rfl

@[simp] theorem owns_append (xs ys : List (Entry α)) (b : Nat) :
    owns (xs ++ ys) b = owns xs b + owns ys b := by
  simp [owns]

theorem owns_single (x : Entry α) (b : Nat) : owns [x] b = if x.1 = b then 1 else 0 := by
  simp [owns,List.count_singleton,beq_iff_eq]

@[simp] theorem owns_cons (x : Entry α) (xs : List (Entry α)) (b : Nat) :
    owns (x :: xs) b = (if x.1 = b then 1 else 0) + owns xs b := by
  rw [← owns_single,← owns_append]
  rfl

theorem owns_pos {x : Entry α} {xs : List (Entry α)} (h : x ∈ xs) : 0 < owns xs x.1 :=
  List.count_pos_iff.mpr (List.mem_map_of_mem h)

/-- No buffer is in two hands, none that is not made yet in any, and all hold what they
should; those in numbered slots included. -/
structure Sound (memory : Nat → List α) (entries : List (Entry α))
    (slots : ι → Option (Nat × List α)) (next : Nat) : Prop where
  once : ∀ b, owns entries b ≤ 1
  apart : ∀ i x, slots i = some x → owns entries x.1 = 0
  unique : ∀ i j x y, slots i = some x → slots j = some y → x.1 = y.1 → i = j
  known : ∀ b, next ≤ b → owns entries b = 0
  slotKnown : ∀ i x, slots i = some x → x.1 < next
  intact : ∀ b c, (b,some c) ∈ entries → c <+: memory b
  slotIntact : ∀ i x, slots i = some x → x.2 <+: memory x.1

variable {memory : Nat → List α} {entries entries' : List (Entry α)}
  {slots : ι → Option (Nat × List α)} {next : Nat}

theorem eq_of_owns {x y : Entry α} (h : ∀ b, owns entries b ≤ 1) (hx : x ∈ entries)
    (hy : y ∈ entries) (hxy : x.1 = y.1) : x = y := by
  induction entries with
  | nil => cases hx
  | cons z zs ih =>
    have htail : ∀ b, owns zs b ≤ 1 := by
      intro b
      have hb := h b
      rw [owns_cons] at hb
      omega
    have hhead : ∀ w ∈ zs, w.1 ≠ z.1 := by
      intro w hw heq
      have hpos := owns_pos hw
      have hz := h w.1
      rw [owns_cons,if_pos heq.symm] at hz
      omega
    rcases List.mem_cons.mp hx with hxz | hx
    · rcases List.mem_cons.mp hy with hyz | hy
      · rw [hxz,hyz]
      · exact absurd (hxz ▸ hxy.symm) (hhead y hy)
    · rcases List.mem_cons.mp hy with hyz | hy
      · exact absurd (hyz ▸ hxy) (hhead x hx)
      · exact ih htail hx hy

theorem eq_of_changed {b b' : Nat} {v : List α}
    (h : Function.update memory b v b' ≠ memory b') : b' = b := by
  by_contra hne
  exact h (Function.update_of_ne hne ..)

namespace Sound

theorem no_slot (h : Sound memory entries slots next) {x : Entry α} (hx : x ∈ entries) (i : ι)
    (c : List α) : slots i ≠ some (x.1,c) := by
  intro hi
  have hpos := owns_pos hx
  rw [h.apart i _ hi] at hpos
  exact Nat.lt_irrefl 0 hpos

theorem other {xs ys : List (Entry α)} (h : Sound memory (xs ++ ys) slots next) {x y : Entry α}
    (hx : x ∈ xs) (hy : y ∈ ys) : x.1 ≠ y.1 := by
  intro heq
  have honce := h.once x.1
  have hpos := owns_pos hx
  have hpos' := owns_pos hy
  rw [← heq] at hpos'
  rw [owns_append] at honce
  omega

theorem moves (h : Sound memory entries slots next) (hown : ∀ b, owns entries' b ≤ owns entries b)
    (hhold : ∀ b c, (b,some c) ∈ entries' → c = [] ∨ (b,some c) ∈ entries) :
    Sound memory entries' slots next where
  once b := Nat.le_trans (hown b) (h.once b)
  apart i x hx := Nat.le_zero.mp (h.apart i x hx ▸ hown x.1)
  unique := h.unique
  known b hb := Nat.le_zero.mp (h.known b hb ▸ hown b)
  slotKnown := h.slotKnown
  intact b c hc := by
    rcases hhold b c hc with rfl | hold
    · exact List.nil_prefix
    · exact h.intact b c hold
  slotIntact := h.slotIntact

theorem makes (h : Sound memory entries slots next)
    (hown : ∀ b, owns entries' b ≤ owns entries b + if next = b then 1 else 0)
    (hhold : ∀ b c, (b,some c) ∈ entries' → c = [] ∨ (b,some c) ∈ entries) :
    Sound memory entries' slots (next+1) where
  once b := by
    have hb := hown b
    have h1 := h.once b
    by_cases hn : next = b
    · have h0 := h.known b (Nat.le_of_eq hn)
      rw [if_pos hn] at hb
      omega
    · rw [if_neg hn] at hb
      omega
  apart i x hx := by
    have hb := hown x.1
    have h0 := h.apart i x hx
    have hlt := h.slotKnown i x hx
    rw [if_neg (by omega)] at hb
    omega
  unique := h.unique
  known b hb := by
    have hle := hown b
    have h0 := h.known b (by omega)
    rw [if_neg (by omega)] at hle
    omega
  slotKnown i x hx := Nat.lt_succ_of_lt (h.slotKnown i x hx)
  intact b c hc := by
    rcases hhold b c hc with rfl | hold
    · exact List.nil_prefix
    · exact h.intact b c hold
  slotIntact := h.slotIntact

/-- A buffer is written to by the one who holds it. -/
theorem fills (h : Sound memory entries slots next) {e : Entry α} {v : List α}
    (he : e ∈ entries') (hv : ∀ c, e.2 = some c → c <+: v)
    (hown : ∀ b, owns entries' b ≤ owns entries b)
    (hhold : ∀ b c, (b,some c) ∈ entries' → (b,some c) ∈ entries ∨ (b,some c) = e) :
    Sound (Function.update memory e.1 v) entries' slots next where
  once b := Nat.le_trans (hown b) (h.once b)
  apart i x hx := Nat.le_zero.mp (h.apart i x hx ▸ hown x.1)
  unique := h.unique
  known b hb := Nat.le_zero.mp (h.known b hb ▸ hown b)
  slotKnown := h.slotKnown
  intact b c hc := by
    have honce : ∀ b, owns entries' b ≤ 1 := fun b => Nat.le_trans (hown b) (h.once b)
    by_cases hb : b = e.1
    · have heq : (b,some c) = e := eq_of_owns honce hc he hb
      rw [hb,Function.update_self]
      exact hv c (congrArg Prod.snd heq).symm
    · rw [Function.update_of_ne hb]
      rcases hhold b c hc with hold | rfl
      · exact h.intact b c hold
      · exact absurd rfl hb
  slotIntact i x hx := by
    have hne : x.1 ≠ e.1 := by
      intro heq
      have h0 := h.apart i x hx
      have hpos := Nat.lt_of_lt_of_le (owns_pos he) (hown e.1)
      rw [← heq] at hpos
      omega
    rw [Function.update_of_ne hne]
    exact h.slotIntact i x hx

variable [DecidableEq ι]

theorem stores (h : Sound memory entries slots next) (i : ι) {b : Nat} {c : List α}
    (hb : (b,some c) ∈ entries)
    (hown : ∀ b', owns entries' b' + (if b = b' then 1 else 0) ≤ owns entries b')
    (hhold : ∀ b c, (b,some c) ∈ entries' → (b,some c) ∈ entries) :
    Sound memory entries' (Function.update slots i (some (b,c))) next where
  once b' := by
    have h1 := h.once b'
    have h2 := hown b'
    omega
  apart j x hx := by
    by_cases hj : j = i
    · subst hj
      rw [Function.update_self] at hx
      cases hx
      have h1 := h.once b
      have h2 := hown b
      rw [if_pos rfl] at h2
      change owns entries' b = 0
      omega
    · rw [Function.update_of_ne hj] at hx
      have h0 := h.apart j x hx
      have h2 := hown x.1
      omega
  unique j k x y hx hy hxy := by
    have hslot : ∀ l z, l ≠ i → Function.update slots i (some (b,c)) l = some z → z.1 ≠ b := by
      intro l z hl hz heq
      rw [Function.update_of_ne hl] at hz
      have h0 := h.apart l z hz
      have hpos := owns_pos hb
      rw [heq] at h0
      simp only at hpos
      omega
    by_cases hj : j = i <;> by_cases hk : k = i
    · rw [hj,hk]
    · subst hj
      rw [Function.update_self] at hx
      cases hx
      exact absurd hxy.symm (hslot k y hk hy)
    · subst hk
      rw [Function.update_self] at hy
      cases hy
      exact absurd hxy (hslot j x hj hx)
    · rw [Function.update_of_ne hj] at hx
      rw [Function.update_of_ne hk] at hy
      exact h.unique j k x y hx hy hxy
  known b' hb' := by
    have h0 := h.known b' hb'
    have h2 := hown b'
    omega
  slotKnown j x hx := by
    by_cases hj : j = i
    · subst hj
      rw [Function.update_self] at hx
      cases hx
      by_contra hlt
      have h0 := h.known b (Nat.le_of_not_lt hlt)
      have hpos := owns_pos hb
      simp only at hpos
      omega
    · rw [Function.update_of_ne hj] at hx
      exact h.slotKnown j x hx
  intact b' c' hc := h.intact b' c' (hhold b' c' hc)
  slotIntact j x hx := by
    by_cases hj : j = i
    · subst hj
      rw [Function.update_self] at hx
      cases hx
      exact h.intact b c hb
    · rw [Function.update_of_ne hj] at hx
      exact h.slotIntact j x hx

theorem releases (h : Sound memory entries slots next) {i : ι} {b : Nat} {c : List α}
    (hi : slots i = some (b,c))
    (hown : ∀ b', owns entries' b' ≤ owns entries b' + if b = b' then 1 else 0)
    (hhold : ∀ b' c', (b',some c') ∈ entries' →
      (b',some c') ∈ entries ∨ ((b',some c') : Entry α) = (b,some c)) :
    Sound memory entries' (Function.update slots i none) next where
  once b' := by
    have h1 := h.once b'
    have h2 := hown b'
    by_cases hbb : b = b'
    · have h0 := h.apart i _ hi
      rw [if_pos hbb] at h2
      rw [← hbb] at h2 ⊢
      simp only at h0
      omega
    · rw [if_neg hbb] at h2
      omega
  apart j x hx := by
    have hj : j ≠ i := by
      rintro rfl
      rw [Function.update_self] at hx
      cases hx
    rw [Function.update_of_ne hj] at hx
    have h0 := h.apart j x hx
    have h2 := hown x.1
    have hne : b ≠ x.1 := fun heq => hj (h.unique j i x (b,c) hx hi heq.symm)
    rw [if_neg hne] at h2
    omega
  unique j k x y hx hy hxy := by
    have hnot : ∀ l z, Function.update slots i none l = some z → slots l = some z := by
      intro l z hz
      by_cases hl : l = i
      · subst hl
        rw [Function.update_self] at hz
        cases hz
      · rwa [Function.update_of_ne hl] at hz
    exact h.unique j k x y (hnot j x hx) (hnot k y hy) hxy
  known b' hb' := by
    have h0 := h.known b' hb'
    have h2 := hown b'
    have hlt := h.slotKnown i _ hi
    simp only at hlt
    rw [if_neg (by omega)] at h2
    omega
  slotKnown j x hx := by
    by_cases hj : j = i
    · subst hj
      rw [Function.update_self] at hx
      cases hx
    · rw [Function.update_of_ne hj] at hx
      exact h.slotKnown j x hx
  intact b' c' hc := by
    rcases hhold b' c' hc with hold | heq
    · exact h.intact b' c' hold
    · cases heq
      exact h.slotIntact i _ hi
  slotIntact j x hx := by
    by_cases hj : j = i
    · subst hj
      rw [Function.update_self] at hx
      cases hx
    · rw [Function.update_of_ne hj] at hx
      exact h.slotIntact j x hx

end Sound

/-- `try_pop` from a queue of free buffers, and an allocation where it finds none. -/
inductive Obtains : List Nat → Nat → Nat → List Nat → Nat → Prop
  | pop (b : Nat) (queue : List Nat) (next : Nat) : Obtains (b :: queue) next b queue next
  | allocate (next : Nat) : Obtains [] next next [] (next+1)

def free (queue : List Nat) : List (Entry α) := queue.map fun b => (b,none)

@[simp] theorem free_nil : (free [] : List (Entry α)) = [] := rfl

@[simp] theorem free_cons (b : Nat) (queue : List Nat) :
    (free (b :: queue) : List (Entry α)) = (b,none) :: free queue := rfl

@[simp] theorem free_append (queue more : List Nat) :
    (free (queue ++ more) : List (Entry α)) = free queue ++ free more := List.map_append

@[simp] theorem mem_free {b : Nat} {c : List α} {queue : List Nat} :
    (b,some c) ∈ free queue ↔ False := by
  simp [free]

/-- The buffer that a step obtains is in its hands only. -/
theorem Sound.obtains (h : Sound memory entries slots next) {queue queue' : List Nat}
    {b next' : Nat} (ho : Obtains queue next b queue' next')
    (hown : ∀ b', owns entries' b' + owns (free queue : List (Entry α)) b' ≤
      owns entries b' + owns (free (b :: queue') : List (Entry α)) b')
    (hhold : ∀ b c, (b,some c) ∈ entries' → c = [] ∨ (b,some c) ∈ entries) :
    Sound memory entries' slots next' := by
  cases ho with
  | pop =>
    refine h.moves (fun b' => ?_) hhold
    have hb := hown b'
    omega
  | allocate =>
    refine h.makes (fun b' => ?_) hhold
    have hb := hown b'
    simpa using hb

/-! Numbered slots that are a sequencer's. -/

section
variable {ω : Type} {f : ω → Nat × List α} {q : Sequencer ω}

theorem Sound.puts (h : Sound memory entries (q.map f).slots next) (tag : Nat) {a : ω}
    (ha : ((f a).1,some (f a).2) ∈ entries)
    (hown : ∀ b, owns entries' b + (if (f a).1 = b then 1 else 0) ≤ owns entries b)
    (hhold : ∀ b c, (b,some c) ∈ entries' → (b,some c) ∈ entries) :
    Sound memory entries' ((q.put tag a).map f).slots next := by
  rw [Sequencer.map_put]
  rcases Sequencer.put_cases (q.map f) tag (f a) with hslots | hslots
  · rw [hslots]
    exact h.moves (fun b => Nat.le_trans (Nat.le_add_right ..) (hown b))
      fun b c hc => .inr (hhold b c hc)
  · rw [hslots]
    exact h.stores tag ha hown hhold

theorem Sound.takes (h : Sound memory entries (q.map f).slots next) {a : ω}
    (hnext : q.next = some a)
    (hown : ∀ b, owns entries' b ≤ owns entries b + if (f a).1 = b then 1 else 0)
    (hhold : ∀ b c, (b,some c) ∈ entries' →
      (b,some c) ∈ entries ∨ ((b,some c) : Entry α) = ((f a).1,some (f a).2)) :
    Sound memory entries' (q.release.map f).slots next := by
  have hslot : (q.map f).slots (q.map f).head = some ((f a).1,(f a).2) :=
    congrArg (Option.map f) hnext
  rw [Sequencer.map_release]
  exact h.releases hslot hown hhold

end

end Ledger
