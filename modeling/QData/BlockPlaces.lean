import QData.Lockstep
import QData.StringRecords
import QData.Lib.Spans
/-! Where a block reader can answer a call: block boundaries beside what its calls ask for. -/
set_option autoImplicit false

namespace QData
open Words Requests Boundaries

/-- Which block boundaries a call allows that is made at a place. None falls inside a pod,
or at or inside bytes that are contiguous with those before them. Those inside a payload are
full blocks apart, and its length must be in reach of the reader's 32-bit counter, which
starts with what the first block holds of it. -/
def FitsAt (boundary : Nat → Prop) (p : Nat) : GetOp → Prop
  | .pod size => ∀ x, boundary x → p < x → p+size ≤ x
  | .podContiguous size => ∀ x, boundary x → p ≤ x → p+size ≤ x
  | .data len =>
      (∀ x y, boundary x → boundary y → p ≤ x → x ≤ y → y < p+len → maxBlocksize ∣ y - x) ∧
        ∀ x, boundary x → p ≤ x → x < p+len → len < 2 ^ 32+(x - p) % maxBlocksize

theorem fitsAt_shift {B C : Nat → Prop} {p : Nat} (h : ∀ x, B (p+x) ↔ C x) (op : GetOp) :
    FitsAt B p op ↔ FitsAt C 0 op := by
  have hat : ∀ x, p ≤ x → (B x ↔ C (x - p)) := by
    intro x hx
    rw [← h,Nat.add_sub_cancel' hx]
  cases op with
  | pod size =>
    refine ⟨fun hf x hx hlt => ?_,fun hf x hx hlt => ?_⟩
    · have := hf (p+x) ((h x).mpr hx) (by omega)
      omega
    · have := hf (x - p) ((hat x (by omega)).mp hx) (by omega)
      omega
  | podContiguous size =>
    refine ⟨fun hf x hx _ => ?_,fun hf x hx hle => ?_⟩
    · have := hf (p+x) ((h x).mpr hx) (by omega)
      omega
    · have := hf (x - p) ((hat x hle).mp hx) (Nat.zero_le _)
      omega
  | data len =>
    refine ⟨fun hf => ⟨fun x y hx hy _ hxy hlt => ?_,fun x hx _ hlt => ?_⟩,
      fun hf => ⟨fun x y hx hy hpx hxy hlt => ?_,fun x hx hpx hlt => ?_⟩⟩
    · have := hf.1 (p+x) (p+y) ((h x).mpr hx) ((h y).mpr hy) (by omega) (by omega) (by omega)
      rwa [Nat.add_sub_add_left] at this
    · have := hf.2 (p+x) ((h x).mpr hx) (by omega) (by omega)
      rwa [Nat.add_sub_cancel_left] at this
    · have := hf.1 (x - p) (y - p) ((hat x hpx).mp hx) ((hat y (by omega)).mp hy)
        (Nat.zero_le _) (by omega) (by omega)
      rwa [Nat.sub_sub_sub_cancel_right hpx] at this
    · exact hf.2 (x - p) ((hat x hpx).mp hx) (Nat.zero_le _) (by omega)

def Cursor.Bound (c : Cursor Feed) (x : Nat) : Prop :=
  ∃ y, Boundary c.source.contents y ∧ x = c.pending.length+y

theorem Cursor.bound_pending (c : Cursor Feed) : c.Bound c.pending.length :=
  ⟨0,boundary_zero _,rfl⟩

theorem Cursor.Bound.le {c : Cursor Feed} {x : Nat} (h : c.Bound x) : c.pending.length ≤ x := by
  obtain ⟨y,_,rfl⟩ := h
  omega

def Cursor.Moved (n : Nat) (c c' : Cursor Feed) : Prop := ∀ x, c'.Bound x ↔ c.Bound (n+x)

theorem Cursor.moved_inside {c : Cursor Feed} {n : Nat} (hn : n ≤ c.pending.length) :
    c.Moved n { c with pending := c.pending.drop n } := by
  intro x
  simp only [Cursor.Bound,List.length_drop]
  refine exists_congr fun y => and_congr_right fun _ => ?_
  omega

theorem Cursor.moved_block {f f' : Feed} {b : Block} (hf : f.contents = b.1 :: f'.contents)
    {n : Nat} (hpos : 0 < n) (hn : n ≤ b.1.length) :
    Cursor.Moved n ⟨[],f⟩ ⟨b.1.drop n,f'⟩ := by
  intro x
  simp only [Cursor.Bound,hf,List.length_drop,List.length_nil,Nat.zero_add]
  constructor
  · rintro ⟨y,hy,rfl⟩
    exact ⟨_,boundary_cons.mpr (.inr ⟨y,hy,rfl⟩),by omega⟩
  · rintro ⟨y,hy,hx⟩
    rcases boundary_cons.mp hy with rfl | ⟨z,hz,rfl⟩
    · omega
    · exact ⟨z,hz,by omega⟩

theorem Cursor.Moved.trans {c c' c'' : Cursor Feed} {n m : Nat} (h : c.Moved n c')
    (h' : c'.Moved m c'') : c.Moved (n+m) c'' := by
  intro x
  rw [h',h,Nat.add_assoc]

theorem feedSource_cons {f f' : Feed} {b : Block} (h : feedSource.fetch f = .ok (b,f')) :
    f.contents = b.1 :: f'.contents := by
  rw [Feed.contents,(feedSource_next h).1]
  rfl

theorem feedSource_nil {f : Feed} {e : Halt ReadError} (h : feedSource.fetch f = .error e) :
    f.contents = [] := by
  obtain ⟨blocks,stop⟩ := f
  cases blocks with
  | nil => rfl
  | cons b blocks => cases h

theorem getRest_continues {len : Nat} (out : Bytes) (acc : Nat) (f : Feed)
    (hacc : acc = out.length) (hle : acc ≤ len) (hn : Narrow len acc) :
    (Continues maxBlocksize f.contents (len - acc) →
      ∃ bs c', Cursor.getRest feedSource len out acc f = .ok (bs,c')) ∧
    ∀ bs c', Cursor.getRest feedSource len out acc f = .ok (bs,c') →
      Continues maxBlocksize f.contents (len - acc) ∧
        Cursor.Moved (len - acc) ⟨[],f⟩ c' := by
  induction out, acc, f using Cursor.getBlocks.induct feedSource len with
  | case1 out acc f hlen e hf =>
    rw [Cursor.getRest,Cursor.getBlocks_error hlen hf,feedSource_nil hf]
    refine ⟨fun h => ?_,fun bs c' h => by cases h⟩
    rw [Continues] at h
    simp only [maxBlocksize] at hlen
    omega
  | case2 out acc f hlen b f₁ hf hb =>
    rw [Cursor.getRest,Cursor.getBlocks_block hlen hf,if_pos hb,feedSource_cons hf]
    refine ⟨fun h => ?_,fun bs c' h => by cases h⟩
    rw [Continues] at h
    have hpos : 0 < maxBlocksize := by decide
    omega
  | case3 out acc f hlen b f₁ hf hb ih =>
    have hsize : b.1.length = maxBlocksize := Decidable.not_not.mp hb
    have hpos : 0 < maxBlocksize := by decide
    obtain ⟨hmod,hn'⟩ := hn.step hlen
    rw [hmod] at ih
    subst hacc
    rw [writeAt_end] at ih
    have hrest : Cursor.getRest feedSource len out out.length f =
        Cursor.getRest feedSource len (out ++ b.1) (out.length+maxBlocksize) f₁ := by
      rw [Cursor.getRest,Cursor.getBlocks_block hlen hf,if_neg hb,hmod,writeAt_end]
      rfl
    obtain ⟨hready,hsound⟩ := ih (by rw [List.length_append,hsize]) (by omega) hn'
    have hsub : len - (out.length+maxBlocksize) = len - out.length - maxBlocksize := by omega
    rw [hsub] at hready hsound
    have hcons : Continues maxBlocksize f.contents (len - out.length) ↔
        Continues maxBlocksize f₁.contents (len - out.length - maxBlocksize) := by
      rw [feedSource_cons hf,Continues]
      constructor
      · rintro (h | h | h)
        · omega
        · exact h.2.2
        · omega
      · exact fun h => .inr (.inl ⟨hlen,hsize,h⟩)
    rw [hrest,hcons]
    refine ⟨hready,fun bs c' h => ?_⟩
    obtain ⟨hcontinues,hmoved⟩ := hsound bs c' h
    have hfirst := Cursor.moved_block (feedSource_cons hf) hpos (Nat.le_of_eq hsize.symm)
    rw [List.drop_eq_nil_of_le (Nat.le_of_eq hsize)] at hfirst
    have hboth := hfirst.trans hmoved
    rw [Nat.add_sub_cancel' hlen] at hboth
    exact ⟨hcontinues,hboth⟩
  | case4 out acc f hlen =>
    rw [Cursor.getRest,Cursor.getBlocks_done hlen]
    simp only [Cursor.getTail]
    by_cases hmore : len - acc > 0
    · rw [if_pos hmore]
      cases hf : feedSource.fetch f with
      | error e =>
        rw [feedSource_nil hf,Continues]
        exact ⟨fun h => by omega,fun bs c' h => by cases h⟩
      | ok r =>
        obtain ⟨b,f₁⟩ := r
        rw [feedSource_cons hf,Continues]
        simp only
        by_cases hb : b.1.length < len - acc
        · rw [if_pos hb]
          exact ⟨fun h => by omega,fun bs c' h => by cases h⟩
        · rw [if_neg hb]
          refine ⟨fun _ => ⟨_,_,rfl⟩,fun bs c' h => ?_⟩
          cases h
          exact ⟨.inr (.inr ⟨by omega,by omega⟩),
            Cursor.moved_block (feedSource_cons hf) hmore (by omega)⟩
    · rw [if_neg hmore]
      have hzero : len - acc = 0 := by omega
      rw [hzero]
      refine ⟨fun _ => ⟨_,_,rfl⟩,fun bs c' h => ?_⟩
      cases h
      refine ⟨?_,fun x => by rw [Nat.zero_add]⟩
      cases f.contents with
      | nil => rfl
      | cons p pieces => exact .inl rfl

def Cursor.Filled (c : Cursor Feed) : Prop := ∀ b ∈ c.source.contents, b ≠ []

theorem Feed.contents_le {f : Feed} : ∀ b ∈ f.contents, b.length ≤ maxBlocksize := by
  intro b hb
  obtain ⟨x,_,rfl⟩ := List.mem_map.mp hb
  exact x.2

theorem continues_fits {c : Cursor Feed} {len : Nat} (hc : c.Filled)
    (hlong : c.pending.length < len) (hp : c.pending.length ≤ maxBlocksize) :
    Continues maxBlocksize c.source.contents (len - c.pending.length) ∧
        Narrow len c.pending.length ↔
      len ≤ c.bytes.length ∧ FitsAt c.Bound 0 (.data len) := by
  have hsize : ∀ b ∈ c.source.contents, 0 < b.length ∧ b.length ≤ maxBlocksize :=
    fun b hb => ⟨List.length_pos_iff.mpr (hc b hb),Feed.contents_le b hb⟩
  have hbytes : c.bytes.length = c.pending.length+c.source.contents.flatten.length := by
    rw [Cursor.bytes,List.length_append]
    rfl
  rw [continues_iff hsize,hbytes]
  constructor
  · rintro ⟨⟨htotal,hall⟩,_,hnarrow⟩
    refine ⟨by omega,?_,?_⟩
    · rintro x y ⟨x,hx,rfl⟩ ⟨y,hy,rfl⟩ _ hxy hlt
      rw [Nat.add_sub_add_left]
      exact Nat.dvd_sub (hall y hy (by omega)) (hall x hx (by omega))
    · rintro x ⟨x,hx,rfl⟩ _ hlt
      obtain ⟨k,rfl⟩ := hall x hx (by omega)
      rwa [Nat.sub_zero,Nat.add_mul_mod_self_left]
  · rintro ⟨htotal,hapart,hcount⟩
    refine ⟨⟨by omega,fun x hx hlt => ?_⟩,?_,?_⟩
    · have := hapart _ (c.pending.length+x) c.bound_pending ⟨x,hx,rfl⟩ (Nat.zero_le _)
        (by omega) (by omega)
      rwa [Nat.add_sub_cancel_left] at this
    · simp only [maxBlocksize] at hp
      omega
    · have := hcount _ c.bound_pending (Nat.zero_le _) (by omega)
      rwa [Nat.sub_zero] at this

theorem take_eq_ok {n : Nat} {c c' : Cursor Feed} {bs : Bytes}
    (h : Cursor.take n c = .ok (bs,c')) :
    n ≤ c.pending.length ∧ c' = { c with pending := c.pending.drop n } := by
  rw [Cursor.take] at h
  split at h
  · cases h
  · cases h
    exact ⟨by omega,rfl⟩

theorem cursor_moves {op : GetOp} (hop : op.Sized) {c c' : Cursor Feed} (hc : c.Filled)
    (hp : c.pending.length ≤ maxBlocksize) {bs : Bytes}
    (h : cursor feedSource op c = .ok (bs,c')) :
    FitsAt c.Bound 0 op ∧ c.Moved op.size c' := by
  cases op with
  | podContiguous size =>
    obtain ⟨hle,rfl⟩ := take_eq_ok h
    refine ⟨fun x hx _ => ?_,Cursor.moved_inside hle⟩
    have := hx.le
    omega
  | pod size =>
    simp only [cursor,Cursor.getPod] at h
    by_cases hnil : c.pending = []
    · rw [if_pos hnil] at h
      obtain ⟨pending,f⟩ := c
      simp only at hnil
      subst hnil
      cases hf : feedSource.fetch f with
      | error e => simp [hf] at h
      | ok r =>
        obtain ⟨b,f'⟩ := r
        simp only [hf] at h
        obtain ⟨hle,rfl⟩ := take_eq_ok h
        simp only at hle
        have hmoved := Cursor.moved_block (feedSource_cons hf) hop hle
        refine ⟨fun x hx hpos => ?_,hmoved⟩
        have hcons := feedSource_cons hf
        obtain ⟨y,hy,rfl⟩ := hx
        simp only [hcons,List.length_nil] at hy hpos ⊢
        rcases boundary_cons.mp hy with rfl | ⟨z,_,rfl⟩
        · omega
        · omega
    · rw [if_neg hnil] at h
      obtain ⟨hle,rfl⟩ := take_eq_ok h
      refine ⟨fun x hx _ => ?_,Cursor.moved_inside hle⟩
      have := hx.le
      omega
  | data len =>
    simp only [cursor,Cursor.getData] at h
    by_cases hle : len ≤ c.pending.length
    · rw [if_pos hle] at h
      cases h
      refine ⟨⟨fun x y hx hy _ _ hlt => ?_,fun x hx _ hlt => ?_⟩,Cursor.moved_inside hle⟩
      · have := hy.le
        omega
      · have := hx.le
        omega
    · rw [if_neg hle] at h
      have hacc : c.pending.length < 2 ^ 32 := by simp only [maxBlocksize] at hp; omega
      have hnarrow : Narrow len c.pending.length := by
        refine ⟨hacc,?_⟩
        by_contra hw
        obtain ⟨e,he⟩ := getBlocks_wide (S := feedSource) len c.pending
          c.pending.length c.source hacc (Nat.le_of_not_lt hw)
        rw [Cursor.getRest,he] at h
        cases h
      obtain ⟨hcontinues,hmoved⟩ :=
        (getRest_continues _ _ c.source rfl (by omega) hnarrow).2 bs c' h
      refine ⟨((continues_fits hc (by omega) hp).mp ⟨hcontinues,hnarrow⟩).2,fun x => ?_⟩
      rw [hmoved]
      simp only [Cursor.Bound,List.length_nil,GetOp.size]
      refine exists_congr fun y => and_congr_right fun _ => ?_
      omega

theorem cursor_serves {op : GetOp} (hop : op.Sized) {c : Cursor Feed} (hc : c.Filled)
    (hp : c.pending.length ≤ maxBlocksize) (hfits : FitsAt c.Bound 0 op)
    (henough : op.size ≤ c.bytes.length) :
    ∃ bs c', cursor feedSource op c = .ok (bs,c') := by
  have htake : ∀ (n : Nat) (d : Cursor Feed), n ≤ d.pending.length →
      ∃ bs c', Cursor.take n d = .ok (bs,c') := by
    intro n d hn
    exact ⟨_,_,by rw [Cursor.take,if_neg (by omega)]⟩
  cases op with
  | podContiguous size =>
    have := hfits _ c.bound_pending (Nat.zero_le _)
    exact htake size c (by omega)
  | pod size =>
    simp only [cursor,Cursor.getPod]
    by_cases hnil : c.pending = []
    · rw [if_pos hnil]
      cases hf : feedSource.fetch c.source with
      | error e =>
        have hempty : c.bytes = [] := by
          rw [Cursor.bytes,hnil]
          change [] ++ c.source.contents.flatten = []
          rw [feedSource_nil hf]
          rfl
        rw [hempty] at henough
        exact absurd henough (Nat.not_le_of_lt hop)
      | ok r =>
        obtain ⟨b,f'⟩ := r
        have hcons := feedSource_cons hf
        have hb : b.1.length > 0 :=
          List.length_pos_iff.mpr (hc b.1 (by rw [hcons]; exact List.mem_cons_self))
        have hbound : c.Bound b.1.length := by
          refine ⟨b.1.length,?_,by rw [hnil]; simp⟩
          rw [hcons]
          exact boundary_cons.mpr (.inr ⟨0,boundary_zero _,rfl⟩)
        have := hfits _ hbound hb
        exact htake size ⟨b.1,f'⟩ (by simp only; omega)
    · rw [if_neg hnil]
      have := hfits _ c.bound_pending (List.length_pos_iff.mpr hnil)
      exact htake size c (by omega)
  | data len =>
    simp only [cursor,Cursor.getData]
    by_cases hle : len ≤ c.pending.length
    · rw [if_pos hle]
      exact ⟨_,_,rfl⟩
    · rw [if_neg hle]
      have henough : len ≤ c.bytes.length := henough
      obtain ⟨hcontinues,hnarrow⟩ :=
        (continues_fits hc (by omega) hp).mpr ⟨henough,hfits⟩
      exact (getRest_continues _ _ c.source rfl (by omega) hnarrow).1 hcontinues

/-- A cursor at a place of a stream: the bytes behind the place are ahead of it, and so are
the boundaries. -/
structure Standing (boundary : Nat → Prop) (p : Nat) (c : Cursor Feed) (s : Bytes) : Prop where
  ahead : Ahead c s
  bounds : ∀ x, boundary (p+x) ↔ c.Bound x
  filled : c.Filled

/-- A block reader answers a call where the bytes alone would and the call fits. -/
theorem cursor_permitted {boundary : Nat → Prop} (p : Nat) (op : GetOp) (c : Cursor Feed)
    (s : Bytes) (hop : op.Sized) (h : Standing boundary p c s) :
    Permitted (FitsAt boundary p op) (Standing boundary (p+op.size))
      (cursor feedSource op c) (channel op s) := by
  obtain ⟨⟨rfl,hp⟩,hbounds,hc⟩ := h
  have hsound : Refines (Standing boundary (p+op.size)) (cursor feedSource op c)
      (channel op c.bytes) := by
    intro bs c' hr
    obtain ⟨t,ht,hahead⟩ := cursor_channel op c c.bytes ⟨rfl,hp⟩ bs c' hr
    refine ⟨t,ht,hahead,fun x => ?_,?_⟩
    · rw [Nat.add_assoc,hbounds,← (cursor_moves hop hc hp hr).2]
    · have hkeeps : ∀ (f : Feed) (b : Block) (f' : Feed), (∀ x ∈ f.contents, x ≠ []) →
          feedSource.fetch f = .ok (b,f') → ∀ x ∈ f'.contents, x ≠ [] := by
        intro f b f' hf hfetch x hx
        exact hf x (by rw [feedSource_cons hfetch]; exact List.mem_cons_of_mem _ hx)
      exact cursor_keeps hkeeps op c bs c' hc hr
  refine ⟨hsound,fun bs c' hr => ?_,fun hfits bs t ht => ?_⟩
  · exact (fitsAt_shift hbounds op).mpr (cursor_moves hop hc hp hr).1
  · have henough : op.size ≤ c.bytes.length := by
      obtain ⟨hl,hs⟩ := channel_eq_ok.mp ht
      rw [hs,List.length_append]
      omega
    obtain ⟨bs',c',hr⟩ := cursor_serves hop hc hp ((fitsAt_shift hbounds op).mp hfits) henough
    obtain ⟨t',ht',hstanding⟩ := hsound bs' c' hr
    rw [ht] at ht'
    cases ht'
    exact ⟨c',hr,hstanding⟩

theorem standing_start {f : Feed} (hf : ∀ b ∈ f.contents, b ≠ []) :
    Standing (Boundary f.contents) 0 (Cursor.start f) f.contents.flatten := by
  refine ⟨⟨by simp [Cursor.bytes,Cursor.start,Feed.bytes,Feed.contents],
    by simp [Cursor.start]⟩,fun x => ?_,hf⟩
  simp only [Cursor.Bound,Cursor.start,List.length_nil,Nat.zero_add]
  constructor
  · intro h
    exact ⟨x,h,rfl⟩
  · rintro ⟨_,h,rfl⟩
    exact h

end QData
