/-! Streams taken in stripes of one width: absorbing them one after the other, and a buffer
that holds back what is not absorbed yet. -/
set_option autoImplicit false

namespace Stripes

variable {α σ : Type}

def absorb (f : σ → List α → σ) (w : Nat) : Nat → List α → σ → σ
  | 0, _, s => s
  | n+1, xs, s => absorb f w n (xs.drop w) (f s (xs.take w))

section
variable (f : σ → List α → σ) (w : Nat)

theorem absorb_add (m n : Nat) (xs : List α) (s : σ) :
    absorb f w (m+n) xs s = absorb f w n (xs.drop (m*w)) (absorb f w m xs s) := by
  induction m generalizing xs s with
  | zero => simp [absorb]
  | succ m ih =>
    rw [Nat.succ_add,absorb,ih,absorb,List.drop_drop,Nat.succ_mul,Nat.add_comm w]

theorem absorb_succ (n : Nat) (xs : List α) (s : σ) :
    absorb f w (n+1) xs s = f (absorb f w n xs s) ((xs.drop (n*w)).take w) := by
  rw [absorb_add]
  rfl

theorem absorb_congr {n : Nat} {xs ys : List α} (h : xs.take (n*w) = ys.take (n*w)) (s : σ) :
    absorb f w n xs s = absorb f w n ys s := by
  induction n generalizing xs ys s with
  | zero => rfl
  | succ n ih =>
    have hfirst : xs.take w = ys.take w := by
      have htake := congrArg (List.take w) h
      rwa [List.take_take,List.take_take,Nat.min_eq_left (Nat.le_mul_of_pos_left w n.succ_pos)]
        at htake
    have hrest : (xs.drop w).take (n*w) = (ys.drop w).take (n*w) := by
      have hdrop := congrArg (List.drop w) h
      rwa [Nat.succ_mul,Nat.add_comm,List.drop_take,List.drop_take,Nat.add_sub_cancel_left]
        at hdrop
    rw [absorb,absorb,hfirst,ih hrest]

theorem absorb_append {n : Nat} {xs : List α} (h : n*w ≤ xs.length) (ys : List α) (s : σ) :
    absorb f w n (xs ++ ys) s = absorb f w n xs s :=
  absorb_congr f w (List.take_append_of_le_length h) s

end

def overwrite (buffer : List α) (pos : Nat) (xs : List α) : List α :=
  buffer.take pos ++ xs ++ buffer.drop (pos+xs.length)

section
variable {buffer xs : List α} {pos : Nat}

theorem length_overwrite (h : pos+xs.length ≤ buffer.length) :
    (overwrite buffer pos xs).length = buffer.length := by
  simp only [overwrite,List.length_append,List.length_take,List.length_drop]
  omega

theorem take_overwrite (h : pos ≤ buffer.length) :
    (overwrite buffer pos xs).take (pos+xs.length) = buffer.take pos ++ xs := by
  have hlen : (buffer.take pos ++ xs).length = pos+xs.length := by
    rw [List.length_append,List.length_take,Nat.min_eq_left h]
  rw [overwrite,← hlen,List.take_left]

theorem drop_overwrite {i : Nat} (h : pos ≤ buffer.length) (hi : pos+xs.length ≤ i) :
    (overwrite buffer pos xs).drop i = buffer.drop i := by
  have hlen : (buffer.take pos ++ xs).length = pos+xs.length := by
    rw [List.length_append,List.length_take,Nat.min_eq_left h]
  rw [overwrite,List.drop_append,hlen,List.drop_drop,
    List.drop_of_length_le (by rw [hlen]; exact hi),List.nil_append]
  congr 1
  omega

end

/-- Of the elements fed so far `n` stripes are absorbed, and `size` elements lie in front of
the buffer. As long as these leave it room, the last stripe absorbed lies at its end. -/
structure Held (w : Nat) (fed buffer : List α) (size n : Nat) : Prop where
  room : size ≤ buffer.length
  counted : n*w+size = fed.length
  front : buffer.take size = fed.drop (n*w)
  behind : 0 < n → size+w ≤ buffer.length →
    buffer.drop (buffer.length-w) = (fed.drop ((n-1)*w)).take w

namespace Held

variable {w size n : Nat} {fed buffer xs : List α}

theorem start (w : Nat) (buffer : List α) : Held w [] buffer 0 0 :=
  ⟨Nat.zero_le _,by simp,by simp,fun h => absurd h (Nat.lt_irrefl 0)⟩

/-- What has been absorbed is not touched by what is fed later. -/
theorem absorbed (h : Held w fed buffer size n) (hn : 0 < n) (xs : List α) :
    ((fed ++ xs).drop ((n-1)*w)).take w = (fed.drop ((n-1)*w)).take w := by
  have hle : (n-1)*w+w ≤ fed.length := by
    have hcounted := h.counted
    rw [← Nat.succ_mul,Nat.succ_eq_add_one,Nat.sub_add_cancel hn]
    omega
  rw [List.drop_append_of_le_length (by omega),
    List.take_append_of_le_length (by rw [List.length_drop]; omega)]

theorem put (h : Held w fed buffer size n) (hfit : size+xs.length ≤ buffer.length) :
    Held w (fed ++ xs) (overwrite buffer size xs) (size+xs.length) n where
  room := by rw [length_overwrite hfit]; exact hfit
  counted := by rw [List.length_append,← h.counted,Nat.add_assoc]
  front := by
    rw [take_overwrite h.room,h.front,List.drop_append_of_le_length]
    have hcounted := h.counted
    omega
  behind := by
    intro hn hroom
    rw [length_overwrite hfit] at hroom ⊢
    rw [drop_overwrite h.room (by omega),h.absorbed hn,h.behind hn (by omega)]

theorem flush {m : Nat} (h : Held w fed buffer buffer.length n) (hm : buffer.length = m*w)
    (hpos : 0 < m) : Held w fed buffer 0 (n+m) where
  room := Nat.zero_le _
  counted := by rw [← h.counted,hm,Nat.add_mul,Nat.add_zero]
  front := by
    have hcounted := h.counted
    rw [hm] at hcounted
    rw [List.take_zero,List.drop_of_length_le (by rw [Nat.add_mul]; omega)]
  behind := by
    intro _ _
    have hfront := h.front
    rw [List.take_length] at hfront
    have hlast : buffer.length-w = (m-1)*w := by rw [hm,Nat.sub_mul,Nat.one_mul]
    have hindex : n+m-1 = n+(m-1) := by omega
    have hlen : (buffer.drop ((m-1)*w)).length ≤ w := by
      rw [List.length_drop]
      omega
    rw [hlast,hindex,Nat.add_mul,← List.drop_drop,← hfront,List.take_of_length_le hlen]

theorem pass {k : Nat} (h : Held w fed buffer 0 n) (hk : 0 < k) (hxs : xs.length = k*w)
    (hw : w ≤ buffer.length) :
    Held w (fed ++ xs) (overwrite buffer (buffer.length-w) (xs.drop ((k-1)*w))) 0 (n+k) := by
  have hcounted := h.counted
  have hlast : (xs.drop ((k-1)*w)).length = w := by
    rw [List.length_drop,hxs,Nat.sub_mul,Nat.one_mul]
    have hle : w ≤ k*w := Nat.le_mul_of_pos_left w hk
    omega
  have hfit : buffer.length-w+(xs.drop ((k-1)*w)).length ≤ buffer.length := by
    rw [hlast]
    omega
  refine ⟨Nat.zero_le _,?_,?_,fun _ _ => ?_⟩
  · rw [List.length_append,hxs,Nat.add_mul]
    omega
  · rw [List.take_zero,List.drop_of_length_le (by rw [List.length_append,hxs,Nat.add_mul]; omega)]
  · have hindex : (n+k-1)*w = fed.length+(k-1)*w := by
      have hprev : n+k-1 = n+(k-1) := by omega
      rw [hprev,Nat.add_mul]
      omega
    rw [length_overwrite hfit,hindex,← List.drop_drop,List.drop_left]
    generalize xs.drop ((k-1)*w) = last at hlast hfit
    have hfront : (buffer.take (buffer.length-w)).length = buffer.length-w := by
      rw [List.length_take]
      omega
    rw [List.take_of_length_le (Nat.le_of_eq hlast),overwrite,List.append_assoc,
      List.drop_left' hfront,List.drop_of_length_le (by omega),List.append_nil]

theorem last_held (h : Held w fed buffer size n) (hw : w ≤ size) :
    (buffer.drop (size-w)).take w = fed.drop (fed.length-w) := by
  have hcounted := h.counted
  have hroom : ((buffer.take size).drop (size-w)).length = w := by
    rw [List.length_drop,List.length_take,Nat.min_eq_left h.room]
    omega
  have hinside : (buffer.take size).drop (size-w) = (buffer.drop (size-w)).take w := by
    rw [List.drop_take]
    congr 1
    omega
  rw [← hinside,h.front,List.drop_drop]
  congr 1
  omega

theorem last_split (h : Held w fed buffer size n) (hn : 0 < n) (hw : size < w)
    (hroom : size+w ≤ buffer.length) :
    buffer.drop (buffer.length-(w-size)) ++ buffer.take size = fed.drop (fed.length-w) := by
  have hcounted := h.counted
  have hprev : (n-1)*w+w = n*w := by rw [← Nat.succ_mul,Nat.succ_eq_add_one,Nat.sub_add_cancel hn]
  have htail : buffer.drop (buffer.length-(w-size)) = (fed.drop ((n-1)*w+size)).take (w-size) := by
    have hbehind := congrArg (List.drop size) (h.behind hn hroom)
    rw [List.drop_drop,List.drop_take,List.drop_drop] at hbehind
    rw [← hbehind]
    congr 1
    omega
  have hstart : fed.length-w = (n-1)*w+size := by omega
  have hsplit : n*w = ((n-1)*w+size)+(w-size) := by omega
  rw [htail,h.front,hstart,hsplit,← List.drop_drop (i := w-size),List.take_append_drop]

theorem absorb_rest (h : Held w fed buffer size n) (hsize : 0 < size) (hw : 0 < w)
    (f : σ → List α → σ) (s : σ) :
    absorb f w ((size-1)/w) buffer (absorb f w n fed s) = absorb f w ((fed.length-1)/w) fed s := by
  have hcounted := h.counted
  have hcount : (fed.length-1)/w = n+(size-1)/w := by
    rw [← hcounted,show n*w+size-1 = size-1+n*w by omega,Nat.add_mul_div_right _ _ hw,Nat.add_comm]
  have hle : (size-1)/w*w ≤ size := Nat.le_trans (Nat.div_mul_le_self _ _) (Nat.sub_le _ _)
  have hrest : buffer.take ((size-1)/w*w) = (fed.drop (n*w)).take ((size-1)/w*w) := by
    rw [← h.front,List.take_take,Nat.min_eq_left hle]
  rw [hcount,absorb_add,absorb_congr f w hrest]

end Held

end Stripes
