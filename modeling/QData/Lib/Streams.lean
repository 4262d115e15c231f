import QData.Lib.Systems
/-! Inputs and outputs: what is read in pieces, what is written at a place, and what lies in a
buffer in front of a device. -/
set_option autoImplicit false

namespace Streams
open Systems

variable {σ α : Type}

/-- `read` hands out at most as many elements as are asked for; none means that there are no
more. `tell` and `seek` may change the input besides its place. -/
structure Input (σ α : Type) where
  read : Nat → σ → List α × σ
  tell : σ → Nat × σ
  seek : Nat → σ → σ
  budget : σ → Nat
  read_budget : ∀ n s, budget (read n s).2+(read n s).1.length ≤ budget s

namespace Input
variable (input : Input σ α)

def toEnd (piece : Nat) (fed : List α) (s : σ) : List α × σ :=
  if _h : (input.read piece s).1 = [] then (fed,(input.read piece s).2)
  else toEnd piece (fed ++ (input.read piece s).1) (input.read piece s).2
termination_by input.budget s
decreasing_by
  have hl := List.length_pos_iff.mpr _h
  have hle := input.read_budget piece s
  omega

abbrev Reads : σ → σ → Prop := Runs fun s t => ∃ n, t = (input.read n s).2

theorem toEnd_reads (piece : Nat) (fed : List α) (s : σ) :
    input.Reads s (input.toEnd piece fed s).2 := by
  induction fed, s using toEnd.induct input piece with
  | case1 fed s h =>
    rw [toEnd,dif_pos h]
    exact .single ⟨piece,rfl⟩
  | case2 fed s h ih =>
    rw [toEnd,dif_neg h]
    exact .head ⟨piece,rfl⟩ ih

/-- In the states of `I` the input passes for the list `rest`. -/
structure Serves (I : σ → Prop) (rest : σ → List α) : Prop where
  read : ∀ n s, I s → (input.read n s).1 = (rest s).take n ∧
    rest (input.read n s).2 = (rest s).drop n ∧ I (input.read n s).2
  back : ∀ s t, I s → input.Reads (input.tell s).2 t →
    rest (input.seek (input.tell s).1 t) = rest s ∧ I (input.seek (input.tell s).1 t)
  tell : ∀ s, I s → rest (input.tell s).2 = rest s ∧ I (input.tell s).2

variable {input} {I : σ → Prop} {rest : σ → List α}

/-- Reading in pieces reads everything. -/
theorem Serves.toEnd (h : input.Serves I rest) {piece : Nat} (hp : 0 < piece) (fed : List α)
    {s : σ} (hs : I s) : (input.toEnd piece fed s).1 = fed ++ rest s := by
  induction fed, s using toEnd.induct input piece with
  | case1 fed s hnone =>
    obtain ⟨hread,_⟩ := h.read piece s hs
    rw [Input.toEnd,dif_pos hnone]
    rcases List.take_eq_nil_iff.mp (hread ▸ hnone) with hz | hnil
    · omega
    · rw [hnil,List.append_nil]
  | case2 fed s hsome ih =>
    obtain ⟨hread,hrest,hi⟩ := h.read piece s hs
    rw [Input.toEnd,dif_neg hsome,ih hi,hrest,hread,List.append_assoc,List.take_append_drop]

end Input

end Streams

/-! A seekable file, as far as its contents are known: which element was last written at an
index, and where the next write goes. -/

namespace Seekable

variable {α : Type}

/-- The elements of `xs` from `pos` on, over what was known before. -/
def place (known : Nat → Option α) (pos : Nat) (xs : List α) : Nat → Option α :=
  fun i => if pos ≤ i ∧ i < pos+xs.length then xs[i-pos]? else known i

/-- Everything that is known lies in the store, which may hold anything else. -/
def Holds (store : List α) (known : Nat → Option α) : Prop :=
  ∀ i x, known i = some x → store[i]? = some x

theorem place_inside (known : Nat → Option α) (pos : Nat) (xs : List α) (i : Nat)
    (h : pos ≤ i ∧ i < pos+xs.length) : place known pos xs i = xs[i-pos]? := by
  simp [place,h]

theorem place_outside (known : Nat → Option α) (pos : Nat) (xs : List α) (i : Nat)
    (h : ¬ (pos ≤ i ∧ i < pos+xs.length)) : place known pos xs i = known i := by
  simp [place,h]

@[simp] theorem place_nil (known : Nat → Option α) (pos : Nat) : place known pos [] = known := by
  funext i
  apply place_outside
  simp

theorem place_append (known : Nat → Option α) (pos : Nat) (xs ys : List α) :
    place known pos (xs ++ ys) = place (place known pos xs) (pos+xs.length) ys := by
  funext i
  unfold place
  rw [List.length_append]
  by_cases hxs : i < pos+xs.length
  · have hys : ¬ (pos+xs.length ≤ i ∧ i < pos+xs.length+ys.length) := by omega
    rw [if_neg hys]
    by_cases hpos : pos ≤ i
    · rw [if_pos (by omega),if_pos (by omega),List.getElem?_append_left (by omega)]
    · rw [if_neg (by omega),if_neg (by omega)]
  · by_cases hys : i < pos+xs.length+ys.length
    · rw [if_pos (by omega),if_pos (by omega),List.getElem?_append_right (by omega),Nat.sub_sub]
    · rw [if_neg (by omega),if_neg (by omega),if_neg (by omega)]

theorem place_end (front xs : List α) :
    place (fun i => front[i]?) front.length xs = fun i => (front ++ xs)[i]? := by
  funext i
  unfold place
  rcases Nat.lt_or_ge i front.length with hi | hi
  · rw [if_neg (by omega),List.getElem?_append_left hi]
  · rw [List.getElem?_append_right hi]
    split
    · rfl
    · have hfront : front[i]? = none := List.getElem?_eq_none hi
      have hxs : xs[i-front.length]? = none := List.getElem?_eq_none (by omega)
      simp only [hfront,hxs]

theorem place_over (front old back xs : List α) (h : old.length = xs.length) :
    place (fun i => (front ++ old ++ back)[i]?) front.length xs =
      fun i => (front ++ xs ++ back)[i]? := by
  funext i
  unfold place
  simp only [List.getElem?_append,List.length_append,h]
  by_cases hfront : i < front.length
  · simp [hfront,Nat.not_le.mpr hfront]
  · by_cases hin : i < front.length+xs.length
    · simp [hfront,hin,Nat.le_of_not_lt hfront]
    · simp [hin]

theorem Holds.place {store store' xs : List α} {known : Nat → Option α} {pos : Nat}
    (h : Holds store known) (hin : (store'.drop pos).take xs.length = xs)
    (hout : ∀ i, i < store.length → ¬ (pos ≤ i ∧ i < pos+xs.length) → store'[i]? = store[i]?) :
    Holds store' (place known pos xs) := by
  intro i x hx
  by_cases hi : pos ≤ i ∧ i < pos+xs.length
  · rw [place_inside known pos xs i hi,← hin] at hx
    have hlt : i-pos < xs.length := by omega
    have hback : pos+(i-pos) = i := by omega
    simpa [List.getElem?_take,hlt,List.getElem?_drop,hback] using hx
  · rw [place_outside known pos xs i hi] at hx
    have hs := h i x hx
    rw [hout i (List.getElem?_eq_some_iff.mp hs).1 hi,hs]

theorem Holds.take {store xs : List α} (h : Holds store fun i => xs[i]?) :
    store.take xs.length = xs := by
  apply List.ext_getElem?
  intro i
  rw [List.getElem?_take]
  by_cases hi : i < xs.length
  · have hx : xs[i]? = some xs[i] := List.getElem?_eq_getElem hi
    rw [if_pos hi,hx]
    exact h i _ hx
  · rw [if_neg hi,List.getElem?_eq_none (by omega)]

/-- What is known of a file, and its write position. -/
structure File (α : Type) where
  known : Nat → Option α
  position : Nat

namespace File

def blank : File α := ⟨fun _ => none,0⟩

def write (xs : List α) (f : File α) : File α :=
  ⟨place f.known f.position xs,f.position+xs.length⟩

def seek (pos : Nat) (f : File α) : File α := { f with position := pos }

theorem write_append (xs ys : List α) (f : File α) :
    f.write (xs ++ ys) = (f.write xs).write ys := by
  simp [write,place_append,Nat.add_assoc]

theorem write_end (front xs : List α) :
    (File.mk (fun i => front[i]?) front.length).write xs =
      ⟨fun i => (front ++ xs)[i]?,(front ++ xs).length⟩ := by
  simp [write,place_end]

theorem write_blank (xs : List α) : blank.write xs = ⟨fun i => xs[i]?,xs.length⟩ := by
  have h := write_end [] xs
  simpa [blank] using h

end File

end Seekable

/-! Output through a buffer to a device that may refuse what it is given: what a write that
went well says about the device is that it will have everything once the buffer is empty. -/

namespace Buffering

/-- A device, and what the buffer in front of it has yet to pass on. -/
structure Buffered (α τ : Type) where
  device : τ
  pending : List α := []

variable {α τ : Type}

namespace Buffered

def accept (xs : List α) (b : Buffered α τ) : Buffered α τ :=
  { b with pending := b.pending ++ xs }

section
variable (put : List α → τ → τ)

def pass (n : Nat) (b : Buffered α τ) : Buffered α τ :=
  ⟨put (b.pending.take n) b.device,b.pending.drop n⟩

def intended (b : Buffered α τ) : τ := put b.pending b.device

end

end Buffered

section
variable (put : List α → τ → τ)

/-- A write, and what is left of it: nothing when the device refuses something. How much
the buffer passes on at a time is open. -/
inductive Writes (b : Buffered α τ) (xs : List α) : Option (Buffered α τ) → Prop
  | took (n : Nat) : Writes b xs (some ((b.accept xs).pass put n))
  | refused : Writes b xs none

inductive Flushes (b : Buffered α τ) : Option (Buffered α τ) → Prop
  | took : Flushes b (some ⟨b.intended put,[]⟩)
  | refused : Flushes b none

inductive WritesAll : Buffered α τ → List (List α) → Option (Buffered α τ) → Prop
  | done (b : Buffered α τ) : WritesAll b [] (some b)
  | next {b b' : Buffered α τ} {xs : List α} {rest : List (List α)}
      {r : Option (Buffered α τ)} (first : Writes put b xs (some b'))
      (more : WritesAll b' rest r) : WritesAll b (xs :: rest) r
  | refused {b : Buffered α τ} {xs : List α} {rest : List (List α)}
      (first : Writes put b xs none) : WritesAll b (xs :: rest) none

structure Sequential : Prop where
  nil : ∀ t, put [] t = t
  append : ∀ xs ys t, put (xs ++ ys) t = put ys (put xs t)

end

section
variable {put : List α → τ → τ} (h : Sequential put) {b b' : Buffered α τ}
include h

theorem intended_pass (b : Buffered α τ) (n : Nat) : (b.pass put n).intended put = b.intended put := by
  rw [Buffered.intended,Buffered.pass,← h.append,List.take_append_drop]
  rfl

theorem intended_accept (b : Buffered α τ) (xs : List α) :
    (b.accept xs).intended put = put xs (b.intended put) := h.append _ _ _

theorem Writes.intended {xs : List α} (w : Writes put b xs (some b')) :
    b'.intended put = put xs (b.intended put) := by
  cases w with
  | took n => rw [intended_pass h,intended_accept h]

theorem WritesAll.intended {pieces : List (List α)} (w : WritesAll put b pieces (some b')) :
    b'.intended put = put pieces.flatten (b.intended put) := by
  generalize hr : some b' = r at w
  induction w with
  | done b =>
    cases hr
    exact (h.nil _).symm
  | next first more ih =>
    rw [ih hr,first.intended h,List.flatten_cons,h.append]
  | refused first => cases hr

end

theorem writesAll_exists (put : List α → τ → τ) (b : Buffered α τ) (pieces : List (List α)) :
    ∃ b', WritesAll put b pieces (some b') := by
  induction pieces generalizing b with
  | nil => exact ⟨b,.done b⟩
  | cons xs rest ih =>
    obtain ⟨b',h⟩ := ih ((b.accept xs).pass put 0)
    exact ⟨b',.next (.took 0) h⟩

end Buffering
