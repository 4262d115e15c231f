import Mathlib.Tactic.Ring
/-! Sequences put together from pieces: words of a fixed width, chunks of one size, words for the
values of a list, and the places where pieces end. -/
set_option autoImplicit false

namespace Words

def toBytes : Nat → Nat → List UInt8
  | 0, _ => []
  | w+1, n => UInt8.ofNat n :: toBytes w (n / 256)

def toNat : List UInt8 → Nat
  | [] => 0
  | b :: bs => b.toNat + 256 * toNat bs

@[simp] theorem length_toBytes (w n : Nat) : (toBytes w n).length = w := by
  induction w generalizing n with
  | zero => rfl
  | succ w ih => simp [toBytes,ih]

theorem toNat_toBytes {w n : Nat} (h : n < 256 ^ w) : toNat (toBytes w n) = n := by
  induction w generalizing n with
  | zero => simp only [Nat.pow_zero] at h; simp [toBytes,toNat]; omega
  | succ w ih =>
    have hd : n / 256 < 256 ^ w := by
      rw [Nat.pow_succ] at h
      exact Nat.div_lt_of_lt_mul (by omega)
    simp only [toBytes,toNat,ih hd,UInt8.toNat_ofNat']
    omega

theorem toBytes_toNat (bs : List UInt8) : toBytes bs.length (toNat bs) = bs := by
  induction bs with
  | nil => rfl
  | cons b bs ih =>
    have hb : b.toNat < 256 := b.toNat_lt
    have hdiv : (b.toNat + 256 * toNat bs) / 256 = toNat bs := by omega
    have hlow : UInt8.ofNat (b.toNat + 256 * toNat bs) = b := by
      rw [← UInt8.toNat_inj,UInt8.toNat_ofNat']
      omega
    simp only [List.length_cons,toBytes,toNat,hdiv,hlow,ih]

theorem toNat_lt (bs : List UInt8) : toNat bs < 256 ^ bs.length := by
  induction bs with
  | nil => simp [toNat]
  | cons b bs ih =>
    have hb := b.toNat_lt
    simp only [toNat,List.length_cons,Nat.pow_succ]
    omega

variable {α : Type}

def pack (put : α → List UInt8) (xs : List α) : List UInt8 := xs.flatMap put

def unpack (w : Nat) (get : List UInt8 → α) : Nat → List UInt8 → List α
  | 0, _ => []
  | n+1, bs => get (bs.take w) :: unpack w get n (bs.drop w)

@[simp] theorem length_unpack (w : Nat) (get : List UInt8 → α) (n : Nat) (bs : List UInt8) :
    (unpack w get n bs).length = n := by
  induction n generalizing bs with
  | zero => rfl
  | succ n ih => rw [unpack,List.length_cons,ih]

@[simp] theorem pack_nil (put : α → List UInt8) : pack put [] = [] := rfl

@[simp] theorem pack_cons (put : α → List UInt8) (x : α) (xs : List α) :
    pack put (x :: xs) = put x ++ pack put xs := by simp [pack]

theorem length_pack {put : α → List UInt8} {w : Nat} (hw : ∀ x, (put x).length = w)
    (xs : List α) : (pack put xs).length = xs.length * w := by
  induction xs with
  | nil => simp
  | cons x xs ih => simp only [pack_cons,List.length_append,hw,ih,List.length_cons]; ring

theorem unpack_pack {put : α → List UInt8} {get : List UInt8 → α} {w : Nat}
    (hw : ∀ x, (put x).length = w) (hg : ∀ x, get (put x) = x) (xs : List α) :
    unpack w get xs.length (pack put xs) = xs := by
  induction xs with
  | nil => rfl
  | cons x xs ih =>
    have ht : (put x ++ pack put xs).take w = put x := by rw [← hw x,List.take_left]
    have hd : (put x ++ pack put xs).drop w = pack put xs := by rw [← hw x,List.drop_left]
    simp only [List.length_cons,pack_cons,unpack,ht,hd,hg,ih]

end Words

/-! Cutting a stream of items into pieces of one fixed size, with what is left over. -/

namespace Chunks

variable {α : Type}

/-- Full pieces of size `m` from the front, and the remainder shorter than `m`. -/
def cut (m : Nat) (xs : List α) : List (List α) × List α :=
  if _h : 0 < m ∧ m ≤ xs.length then
    let r := cut m (xs.drop m)
    (xs.take m :: r.1, r.2)
  else ([],xs)
termination_by xs.length
decreasing_by simp only [List.length_drop]; omega

theorem cut_short {m : Nat} {l : List α} (h : l.length < m) : cut m l = ([],l) := by
  rw [cut,dif_neg (by omega)]

theorem cut_long {m : Nat} {l : List α} (hm : 0 < m) (h : m ≤ l.length) :
    cut m l = (l.take m :: (cut m (l.drop m)).1,(cut m (l.drop m)).2) := by
  rw [cut,dif_pos ⟨hm,h⟩]

theorem cut_flatten (m : Nat) (xs : List α) : (cut m xs).1.flatten ++ (cut m xs).2 = xs := by
  induction xs using cut.induct m with
  | case1 xs h ih => rw [cut_long h.1 h.2]; simp [ih]
  | case2 xs h => rw [cut,dif_neg h]; rfl

theorem cut_length {m : Nat} (xs : List α) : ∀ c ∈ (cut m xs).1, c.length = m := by
  induction xs using cut.induct m with
  | case1 xs h ih =>
    rw [cut_long h.1 h.2]
    intro c hc
    rcases List.mem_cons.mp hc with rfl | hc
    · simp; omega
    · exact ih c hc
  | case2 xs h => rw [cut,dif_neg h]; simp

theorem cut_rest_lt {m : Nat} (hm : 0 < m) (xs : List α) : (cut m xs).2.length < m := by
  induction xs using cut.induct m with
  | case1 xs h ih => rw [cut_long h.1 h.2]; exact ih
  | case2 xs h => rw [cut,dif_neg h]; simp only; omega

theorem cut_count {m : Nat} (xs : List α) : (cut m xs).1.length*m ≤ xs.length := by
  induction xs using cut.induct m with
  | case1 xs h ih =>
    rw [cut_long h.1 h.2]
    simp only [List.length_cons,List.length_drop,Nat.succ_mul] at ih ⊢
    omega
  | case2 xs h => rw [cut,dif_neg h]; simp

theorem cut_append {m : Nat} (xs ys : List α) :
    cut m (xs ++ ys) =
      ((cut m xs).1 ++ (cut m ((cut m xs).2 ++ ys)).1,(cut m ((cut m xs).2 ++ ys)).2) := by
  induction xs using cut.induct m with
  | case1 xs h ih =>
    rw [cut_long h.1 (by rw [List.length_append]; omega),cut_long h.1 h.2,
      List.take_append_of_le_length h.2,List.drop_append_of_le_length h.2,ih]
    rfl
  | case2 xs h =>
    have hxs : cut m xs = ([],xs) := by rw [cut,dif_neg h]
    rw [hxs]
    rfl

end Chunks

/-! Relations between values and the words that stand for them: one word after the other, and
which of the words for a value is the shortest. -/

namespace Languages

variable {α β γ : Type}

inductive Each (E : α → List γ → Prop) : List α → List γ → Prop
  | nil : Each E [] []
  | cons {x : α} {xs : List α} {w ws : List γ} (first : E x w) (rest : Each E xs ws) :
      Each E (x :: xs) (w ++ ws)

theorem Each.forall {E : α → List γ → Prop} {P : α → Prop} {xs : List α} {w : List γ}
    (h : Each E xs w) (hp : ∀ x w, E x w → P x) : ∀ x ∈ xs, P x := by
  induction h with
  | nil => exact fun x hx => by cases hx
  | cons first _ ih =>
    intro x hx
    rcases List.mem_cons.mp hx with rfl | hx
    · exact hp _ _ first
    · exact ih x hx

def Shortest (c w : List γ) : Prop := c = w ∨ c.length < w.length

theorem Shortest.refl (c : List γ) : Shortest c c := .inl rfl

theorem Shortest.length_le {c w : List γ} (h : Shortest c w) : c.length ≤ w.length := by
  rcases h with rfl | h
  · exact Nat.le_refl _
  · exact Nat.le_of_lt h

theorem Shortest.eq {c w : List γ} (h : Shortest c w) (hl : w.length ≤ c.length) : w = c := by
  rcases h with rfl | h
  · rfl
  · omega

theorem Shortest.append {c d w v : List γ} (h : Shortest c w) (h' : Shortest d v) :
    Shortest (c ++ d) (w ++ v) := by
  have hl := h.length_le
  have hl' := h'.length_le
  rcases h with rfl | h
  · rcases h' with rfl | h'
    · exact .refl _
    · exact .inr (by simp only [List.length_append]; omega)
  · exact .inr (by simp only [List.length_append]; omega)

end Languages

/-! Where a sequence of pieces is cut, and which stretches of its contents lie in the pieces
they should. -/

namespace Boundaries

variable {α : Type}

/-- A place behind some of the pieces. -/
def Boundary (pieces : List (List α)) (x : Nat) : Prop :=
  ∃ front, front <+: pieces ∧ x = front.flatten.length

theorem boundary_zero (pieces : List (List α)) : Boundary pieces 0 :=
  ⟨[],List.nil_prefix,rfl⟩

@[simp] theorem boundary_nil {x : Nat} : Boundary ([] : List (List α)) x ↔ x = 0 := by
  constructor
  · rintro ⟨front,hfront,rfl⟩
    rw [List.prefix_nil.mp hfront]
    rfl
  · rintro rfl
    exact boundary_zero []

theorem boundary_cons {p : List α} {pieces : List (List α)} {x : Nat} :
    Boundary (p :: pieces) x ↔ x = 0 ∨ ∃ y, Boundary pieces y ∧ x = p.length+y := by
  constructor
  · rintro ⟨front,hfront,rfl⟩
    cases front with
    | nil => exact .inl rfl
    | cons q front =>
      obtain ⟨rfl,hrest⟩ := List.cons_prefix_cons.mp hfront
      exact .inr ⟨_,⟨front,hrest,rfl⟩,by simp⟩
  · rintro (rfl | ⟨y,⟨front,hfront,rfl⟩,rfl⟩)
    · exact boundary_zero _
    · exact ⟨p :: front,List.cons_prefix_cons.mpr ⟨rfl,hfront⟩,by simp⟩

/-- A stretch of `n` from the first piece on: whole pieces of `m` as long as `m` or more are
missing, then the front of one piece. -/
def Continues (m : Nat) : List (List α) → Nat → Prop
  | [], n => n = 0
  | p :: pieces, n =>
      n = 0 ∨ (m ≤ n ∧ p.length = m ∧ Continues m pieces (n - m)) ∨ (n < m ∧ n ≤ p.length)

/-- For pieces of at most `m`, this is that the boundaries within the stretch are a multiple
of `m` apart from its start. -/
theorem continues_iff {m : Nat} {pieces : List (List α)}
    (hsize : ∀ p ∈ pieces, 0 < p.length ∧ p.length ≤ m) {n : Nat} :
    Continues m pieces n ↔
      n ≤ pieces.flatten.length ∧ ∀ x, Boundary pieces x → x < n → m ∣ x := by
  induction pieces generalizing n with
  | nil => simp [Continues]
  | cons p pieces ih =>
    obtain ⟨hpos,hle⟩ := hsize p List.mem_cons_self
    have ih := fun n => ih (fun q hq => hsize q (List.mem_cons_of_mem _ hq)) (n := n)
    have hp : Boundary (p :: pieces) p.length :=
      boundary_cons.mpr (.inr ⟨0,boundary_zero _,rfl⟩)
    rw [Continues,List.flatten_cons,List.length_append]
    constructor
    · rintro (rfl | ⟨hmn,hpm,hrest⟩ | ⟨hnm,hnp⟩)
      · exact ⟨Nat.zero_le _,fun x _ hx => absurd hx (Nat.not_lt_zero x)⟩
      · obtain ⟨htotal,hall⟩ := (ih _).mp hrest
        refine ⟨by omega,fun x hx hxn => ?_⟩
        rcases boundary_cons.mp hx with rfl | ⟨y,hy,rfl⟩
        · exact Nat.dvd_zero m
        · rw [hpm]
          exact (Nat.dvd_add_right (Nat.dvd_refl m)).mpr (hall y hy (by omega))
      · refine ⟨by omega,fun x hx hxn => ?_⟩
        rcases boundary_cons.mp hx with rfl | ⟨y,_,rfl⟩
        · exact Nat.dvd_zero m
        · omega
    · rintro ⟨htotal,hall⟩
      by_cases hn : n = 0
      · exact .inl hn
      -- a first piece that ends within the stretch has the full size
      have hfull : p.length < n → p.length = m := fun h =>
        Nat.le_antisymm hle (Nat.le_of_dvd hpos (hall _ hp h))
      by_cases hmn : m ≤ n
      · have hpm : p.length = m := by
          rcases Nat.lt_or_ge p.length n with h | h
          · exact hfull h
          · omega
        refine .inr (.inl ⟨hmn,hpm,(ih _).mpr ⟨by omega,fun y hy hyn => ?_⟩⟩)
        have hx := hall (p.length+y) (boundary_cons.mpr (.inr ⟨y,hy,rfl⟩)) (by omega)
        rw [hpm] at hx
        exact (Nat.dvd_add_right (Nat.dvd_refl m)).mp hx
      · refine .inr (.inr ⟨by omega,?_⟩)
        rcases Nat.lt_or_ge p.length n with h | h
        · have := hfull h
          omega
        · exact h

end Boundaries
