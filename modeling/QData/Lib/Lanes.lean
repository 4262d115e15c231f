import Mathlib.Algebra.Group.Nat.Defs
import Mathlib.Data.List.GetD
/-! Matrices of bytes, and vector registers under instructions that only move bytes. A network of
such instructions is known by what it does to the places of its bytes. -/
set_option autoImplicit false

namespace Transposition

variable {α : Type}

def rows (m n : Nat) (entry : Nat → Nat → α) : List α :=
  (List.range m).flatMap fun i => (List.range n).map (entry i)

theorem rows_succ (m n : Nat) (entry : Nat → Nat → α) :
    rows (m+1) n entry = rows m n entry ++ (List.range n).map (entry m) := by
  simp [rows,List.range_succ]

@[simp] theorem length_rows (m n : Nat) (entry : Nat → Nat → α) :
    (rows m n entry).length = m*n := by
  induction m with
  | zero => simp [rows]
  | succ m ih =>
    rw [rows_succ,List.length_append,ih,List.length_map,List.length_range,Nat.succ_mul]

theorem getD_rows {m n i j : Nat} (entry : Nat → Nat → α) (d : α) (hi : i < m) (hj : j < n) :
    (rows m n entry).getD (i*n+j) d = entry i j := by
  induction m with
  | zero => omega
  | succ m ih =>
    rw [rows_succ]
    by_cases hlast : i = m
    · subst hlast
      rw [List.getD_append_right _ _ _ _ (by simp),length_rows,Nat.add_sub_cancel_left]
      simp [hj]
    · have hrow : i*n+j < m*n := by
        have hle : (i+1)*n ≤ m*n := Nat.mul_le_mul_right n (by omega)
        rw [Nat.succ_mul] at hle
        omega
      rw [List.getD_append _ _ _ _ (by simpa using hrow)]
      exact ih (by omega)

theorem rows_congr {m n : Nat} {f g : Nat → Nat → α} (h : ∀ i < m, ∀ j < n, f i j = g i j) :
    rows m n f = rows m n g := by
  induction m with
  | zero => rfl
  | succ m ih =>
    have hlast : (List.range n).map (f m) = (List.range n).map (g m) :=
      List.map_congr_left fun j hj => h m (Nat.lt_succ_self m) j (List.mem_range.mp hj)
    rw [rows_succ,rows_succ,ih fun i hi => h i (Nat.lt_succ_of_lt hi),hlast]

theorem rows_getD {m n : Nat} (d : α) {xs : List α} (h : xs.length = m*n) :
    rows m n (fun i j => xs.getD (i*n+j) d) = xs := by
  refine List.ext_getElem (by rw [length_rows,h]) fun p hp hxs => ?_
  rw [length_rows] at hp
  have hn : 0 < n := Nat.pos_of_ne_zero (by rintro rfl; simp at hp)
  have hsplit : p / n * n + p % n = p := Nat.div_add_mod' p n
  have hentry := getD_rows (fun i j => xs.getD (i*n+j) d) d
    ((Nat.div_lt_iff_lt_mul hn).mpr hp) (Nat.mod_lt p hn)
  rw [hsplit] at hentry
  rw [← List.getD_eq_getElem _ d,hentry,List.getD_eq_getElem _ d hxs]

/-- The transpose of a matrix with `m` rows and `n` columns; `d` is never read. -/
def transpose (d : α) (m n : Nat) (xs : List α) : List α :=
  rows n m fun j i => xs.getD (i*n+j) d

@[simp] theorem length_transpose (d : α) (m n : Nat) (xs : List α) :
    (transpose d m n xs).length = n*m := length_rows n m _

theorem transpose_transpose {d : α} {m n : Nat} {xs : List α} (h : xs.length = m*n) :
    transpose d n m (transpose d m n xs) = xs := by
  calc transpose d n m (transpose d m n xs)
      = rows m n fun i j => xs.getD (i*n+j) d :=
        rows_congr fun i hi j hj => getD_rows _ d hj hi
    _ = xs := rows_getD d h

end Transposition

/-! Vector registers under instructions that only move bytes, and the memory they are stored
to. A network of such instructions is known by what it does to the places of its bytes. -/

namespace Lanes

variable {α β : Type}

/-- The bytes of a register, from the lowest on. -/
abbrev Reg (α : Type) := Nat → α

/-- Of each 128-bit lane, the elements of `e` bytes in its low half, those of `a` and of `b`
in turn. -/
def unpacklo (e : Nat) (a b : Reg α) : Reg α := fun p =>
  let place := p / 16*16+p % 16 / e / 2*e+p % e
  if p % 16 / e % 2 = 0 then a place else b place

def unpackhi (e : Nat) (a b : Reg α) : Reg α := fun p =>
  let place := p / 16*16+8+p % 16 / e / 2*e+p % e
  if p % 16 / e % 2 = 0 then a place else b place

def shuffleEpi32 (a : Reg α) (imm : Nat) : Reg α := fun p =>
  a (p / 16*16+imm / 4 ^ (p % 16 / 4) % 4*4+p % 4)

def permute4x64 (a : Reg α) (imm : Nat) : Reg α := fun p =>
  a (imm / 4 ^ (p / 8) % 4*8+p % 8)

/-- Four bits of `imm` choose each lane out of two registers; zeroing is not used. -/
def permute2x128 (a b : Reg α) (imm : Nat) : Reg α := fun p =>
  let lane := imm / 16 ^ (p / 16) % 4
  if lane < 2 then a (lane*16+p % 16) else b ((lane-2)*16+p % 16)

def permutevar8x32 (a : Reg α) (idx : List Nat) : Reg α := fun p =>
  a (idx.getD (p / 4) 0 % 8*4+p % 4)

def alternate (f g : Nat → Reg α) : Nat → Reg α := fun k =>
  if k % 2 = 0 then f (k / 2) else g (k / 2)

def halves (n : Nat) (f g : Nat → Reg α) : Nat → Reg α := fun k =>
  if k < n then f k else g (k-n)

section
variable (f : α → β)

theorem unpacklo_comp (e : Nat) (a b : Reg α) :
    unpacklo e (f ∘ a) (f ∘ b) = f ∘ unpacklo e a b := by
  funext p
  simp only [unpacklo,Function.comp,apply_ite f]

theorem unpackhi_comp (e : Nat) (a b : Reg α) :
    unpackhi e (f ∘ a) (f ∘ b) = f ∘ unpackhi e a b := by
  funext p
  simp only [unpackhi,Function.comp,apply_ite f]

theorem shuffleEpi32_comp (a : Reg α) (imm : Nat) :
    shuffleEpi32 (f ∘ a) imm = f ∘ shuffleEpi32 a imm := rfl

theorem permute4x64_comp (a : Reg α) (imm : Nat) :
    permute4x64 (f ∘ a) imm = f ∘ permute4x64 a imm := rfl

theorem permute2x128_comp (a b : Reg α) (imm : Nat) :
    permute2x128 (f ∘ a) (f ∘ b) imm = f ∘ permute2x128 a b imm := by
  funext p
  simp only [permute2x128,Function.comp,apply_ite f]

theorem permutevar8x32_comp (a : Reg α) (idx : List Nat) :
    permutevar8x32 (f ∘ a) idx = f ∘ permutevar8x32 a idx := rfl

theorem alternate_comp (g h : Nat → Reg α) (k : Nat) :
    alternate (fun k => f ∘ g k) (fun k => f ∘ h k) k = f ∘ alternate g h k :=
  (apply_ite (f ∘ ·) ..).symm

theorem halves_comp (n : Nat) (g h : Nat → Reg α) (k : Nat) :
    halves n (fun k => f ∘ g k) (fun k => f ∘ h k) k = f ∘ halves n g h k :=
  (apply_ite (f ∘ ·) ..).symm

end

/-- A network from registers to registers, whatever their bytes are. -/
abbrev Network := ∀ {α : Type}, (Nat → Reg α) → Nat → Reg α

def Natural (net : Network) : Prop :=
  ∀ {α β : Type} (f : α → β) (regs : Nat → Reg α) (k : Nat),
    net (fun k => f ∘ regs k) k = f ∘ net regs k

/-- Where byte `l` of register `k` comes from, if `n` registers of `w` bytes go in and out. -/
def Moves (net : Network) (n w : Nat) (place : Nat → Nat → Nat × Nat) : Prop :=
  ∀ k < n, ∀ l < w, net Prod.mk k l = place k l

instance (net : Network) (n w : Nat) (place : Nat → Nat → Nat × Nat) :
    Decidable (Moves net n w place) :=
  inferInstanceAs (Decidable (∀ k < n, ∀ l < w, net Prod.mk k l = place k l))

theorem Natural.image {net : Network} (h : Natural net) (f : α → β) (regs : Nat → Reg α) :
    net (fun k => f ∘ regs k) = fun k => f ∘ net regs k := funext (h f regs)

theorem Natural.reads {net : Network} (h : Natural net) {n w : Nat}
    {place : Nat → Nat → Nat × Nat} (hm : Moves net n w place) {k l : Nat} (hk : k < n)
    (hl : l < w) (regs : Nat → Reg α) :
    net regs k l = regs (place k l).1 (place k l).2 := by
  have hread := congrFun (h (fun p : Nat × Nat => regs p.1 p.2) Prod.mk k) l
  rw [Function.comp,hm k hk l hl] at hread
  exact hread

abbrev Memory (α : Type) := Nat → α

def load (mem : Memory α) (pos : Nat) : Reg α := fun l => mem (pos+l)

def store (w pos : Nat) (reg : Reg α) (mem : Memory α) : Memory α := fun p =>
  if pos ≤ p ∧ p < pos+w then reg (p-pos) else mem p

/-- What has been written so far is as it should be, and the rest is as it was. -/
structure Wrote (goal old : Memory α) (done : Nat → Prop) (mem : Memory α) : Prop where
  written : ∀ p, done p → mem p = goal p
  kept : ∀ p, ¬ done p → mem p = old p

namespace Wrote

variable {goal old mem : Memory α} {done : Nat → Prop}

theorem start (goal old : Memory α) : Wrote goal old (fun _ => False) old :=
  ⟨fun _ h => h.elim,fun _ _ => rfl⟩

theorem congr {done' : Nat → Prop} (h : Wrote goal old done mem) (hd : ∀ p, done p ↔ done' p) :
    Wrote goal old done' mem :=
  ⟨fun p hp => h.written p ((hd p).mpr hp),fun p hp => h.kept p fun hq => hp ((hd p).mp hq)⟩

theorem store {w pos : Nat} {reg : Reg α} (h : Wrote goal old done mem)
    (hreg : ∀ l < w, reg l = goal (pos+l)) :
    Wrote goal old (fun p => done p ∨ pos ≤ p ∧ p < pos+w) (store w pos reg mem) where
  written := by
    intro p hp
    rw [Lanes.store]
    split
    · next hin => rw [hreg _ (by omega),Nat.add_sub_of_le hin.1]
    · next hout => exact h.written p (hp.resolve_right hout)
  kept := by
    intro p hp
    rw [not_or] at hp
    rw [Lanes.store,if_neg hp.2]
    exact h.kept p hp.1

theorem loop {ι : Type} {ts : List ι} {step : Memory α → ι → Memory α} {more : ι → Nat → Prop}
    (h : Wrote goal old done mem)
    (hstep : ∀ t ∈ ts, ∀ done mem, Wrote goal old done mem →
      Wrote goal old (fun p => done p ∨ more t p) (step mem t)) :
    Wrote goal old (fun p => done p ∨ ∃ t ∈ ts, more t p) (ts.foldl step mem) := by
  induction ts generalizing done mem with
  | nil => exact h.congr fun p => by simp
  | cons t ts ih =>
    have hrest := ih (hstep t List.mem_cons_self done mem h)
      fun t' ht' => hstep t' (List.mem_cons_of_mem t ht')
    exact hrest.congr fun p => by simp [or_assoc]

end Wrote

end Lanes
