import QData.Lockstep
import QData.ReaderLimits
import QData.ReaderMemory
import QData.StringStorage
import QData.Lib.Spans
/-! The storage that a string vector is read into: slabs that records share, and where each
record comes to lie. -/
set_option autoImplicit false

namespace QData
open Words Requests

/-- The requests of `read_string_payloads`. A `get_data` into string storage names its slab, the
offset in it, and what was allocated for the slab. -/
inductive SlabOp where
  | plain (op : GetOp)
  | into (slab offset slabSize size : Nat)
  deriving DecidableEq, Repr

def SlabOp.toGetOp : SlabOp → GetOp
  | .plain op => op
  | .into _ _ _ size => .data size

def SlabOp.Fits : SlabOp → Prop
  | .plain _ => True
  | .into _ offset slabSize size => offset+size ≤ slabSize

abbrev SlabReader (α : Type) := Prog SlabOp Bytes ReadError α

/-- The locals of `read_string_payloads` and `storage->slabs`. A slab is named by the number of
its allocation, and stays at its place in the heap. -/
structure StringSlabs where
  heap : List Bytes := []
  slabs : List Nat := []
  currentSlab : Option Nat := none
  slabUsed : Nat := 0
  slabCapacity : Nat := 0

namespace StringSlabs

def slab (m : StringSlabs) (slab : Nat) : Bytes := m.heap.getD slab []

def finishCurrentSlab (m : StringSlabs) : StringSlabs :=
  match m.currentSlab with
  | some slab =>
      { m with slabs := m.slabs ++ [slab], currentSlab := none, slabUsed := 0, slabCapacity := 0 }
  | none => m

def makeSlab (size : Nat) (m : StringSlabs) : Nat × StringSlabs :=
  (m.heap.length,{ m with heap := m.heap ++ [List.replicate size 0] })

/-- A new current slab. How much of it is used is left as it was. -/
def renewSlab (m : StringSlabs) : Nat × StringSlabs :=
  let m := m.finishCurrentSlab
  let (slab,m) := m.makeSlab defaultStringStorageBytes
  (slab,{ m with currentSlab := some slab, slabCapacity := defaultStringStorageBytes })

def slabWithRoom (payloadSize : Nat) (m : StringSlabs) : Nat × StringSlabs :=
  match m.currentSlab with
  | some slab =>
      if sub64 m.slabCapacity m.slabUsed < payloadSize then m.renewSlab else (slab,m)
  | none => m.renewSlab

def fill (slab offset : Nat) (bs : Bytes) (m : StringSlabs) : StringSlabs :=
  { m with heap := m.heap.set slab (writeAt (m.slab slab) offset bs) }

end StringSlabs

def getDataInto (slab offset size : Nat) (m : StringSlabs) : SlabReader StringSlabs := do
  let bs ← Prog.request (SlabOp.into slab offset (m.slab slab).length size)
  pure (m.fill slab offset bs)

def readSlabRecord (m : StringSlabs) : SlabReader (StringRef × StringSlabs) := do
  let stringLength ← readStringHeader.relabel SlabOp.plain
  if stringLength = naStringLength then pure ({},m)
  else if stringLength = 0 then pure (⟨none,0⟩,m)
  else
    let payloadSize ←
      (checkedRCompatibleStringSize stringLength "string length").relabel SlabOp.plain
    if payloadSize > defaultStringStorageBytes then
      let (largeSlab,m) := m.finishCurrentSlab.makeSlab payloadSize
      let m ← getDataInto largeSlab 0 payloadSize m
      pure (⟨some (largeSlab,0),stringLength⟩,{ m with slabs := m.slabs ++ [largeSlab] })
    else
      let (slab,m) := m.slabWithRoom payloadSize
      let offset := m.slabUsed
      let m ← getDataInto slab offset payloadSize m
      pure (⟨some (slab,offset),stringLength⟩,{ m with slabUsed := m.slabUsed+payloadSize })

/-- `read_string_payloads`: the records, and the storage that the vector gets with them. -/
def readStringSlabs : Nat → StringSlabs → SlabReader (List StringRef × StringSlabs)
  | 0, m => pure ([],m.finishCurrentSlab)
  | n+1, m => do
      let (r,m) ← readSlabRecord m
      let (rs,m) ← readStringSlabs n m
      pure (r :: rs,m)

structure Stretch where
  slab : Nat
  offset : Nat
  size : Nat
  deriving DecidableEq, Repr

def Stretch.Apart (x y : Stretch) : Prop :=
  x.slab ≠ y.slab ∨ x.offset+x.size ≤ y.offset ∨ y.offset+y.size ≤ x.offset

namespace StringSlabs

/-- What is kept between two records. The slabs in storage and the current one are all
different. -/
structure Sound (m : StringSlabs) : Prop where
  idle : m.currentSlab = none → m.slabUsed = 0
  used : ∀ slab, m.currentSlab = some slab → m.slabUsed ≤ m.slabCapacity
  capacity : ∀ slab, m.currentSlab = some slab → m.slabCapacity = defaultStringStorageBytes
  room : ∀ slab, m.currentSlab = some slab → m.slabCapacity ≤ (m.slab slab).length
  current : ∀ slab, m.currentSlab = some slab → slab < m.heap.length ∧ slab ∉ m.slabs
  stored : ∀ slab ∈ m.slabs, slab < m.heap.length
  nodup : m.slabs.Nodup

def Owned (m : StringSlabs) (slab : Nat) : Prop := slab ∈ m.slabs ∨ m.currentSlab = some slab

structure InUse (m : StringSlabs) (x : Stretch) : Prop where
  slab : x.slab < m.heap.length
  inside : x.offset+x.size ≤ (m.slab x.slab).length
  behind : m.currentSlab = some x.slab → x.offset+x.size ≤ m.slabUsed

def read (m : StringSlabs) (x : Stretch) : Bytes := readAddress m.heap (x.slab,x.offset) x.size

/-- Nothing in use moves, changes or loses its slab. -/
structure Keeps (m m' : StringSlabs) : Prop where
  inUse : ∀ x, m.InUse x → m'.InUse x
  read : ∀ x, m.InUse x → m'.read x = m.read x
  owned : ∀ slab, m.Owned slab → m'.Owned slab

theorem Keeps.refl (m : StringSlabs) : Keeps m m := ⟨fun _ h => h,fun _ _ => rfl,fun _ h => h⟩

theorem Keeps.trans {m₁ m₂ m₃ : StringSlabs} (h : Keeps m₁ m₂) (h' : Keeps m₂ m₃) : Keeps m₁ m₃ :=
  ⟨fun x hx => h'.inUse x (h.inUse x hx),
    fun x hx => (h'.read x (h.inUse x hx)).trans (h.read x hx),
    fun slab hs => h'.owned slab (h.owned slab hs)⟩

theorem finishCurrentSlab_heap (m : StringSlabs) : m.finishCurrentSlab.heap = m.heap := by
  unfold finishCurrentSlab
  cases m.currentSlab <;> rfl

theorem finishCurrentSlab_current (m : StringSlabs) :
    m.finishCurrentSlab.currentSlab = none := by
  unfold finishCurrentSlab
  split
  · rfl
  · next h => exact h

theorem finishCurrentSlab_owned (m : StringSlabs) (slab : Nat) :
    slab ∈ m.finishCurrentSlab.slabs ↔ m.Owned slab := by
  unfold finishCurrentSlab Owned
  cases m.currentSlab with
  | none => simp
  | some current => simp [eq_comm]

section
variable {m m' : StringSlabs}

theorem Sound.start : Sound {} :=
  ⟨fun _ => rfl,nofun,nofun,nofun,nofun,nofun,List.nodup_nil⟩

theorem Sound.finish (h : Sound m) : Sound m.finishCurrentSlab := by
  have hnone := m.finishCurrentSlab_current
  constructor
  · intro _
    unfold finishCurrentSlab
    split
    · rfl
    · next hcur => exact h.idle hcur
  all_goals try (intro slab hslab; rw [hnone] at hslab; cases hslab)
  · intro slab hslab
    rw [finishCurrentSlab_heap]
    rcases (finishCurrentSlab_owned m slab).mp hslab with hs | hs
    · exact h.stored slab hs
    · exact (h.current slab hs).1
  · unfold finishCurrentSlab
    split
    · next slab hcur =>
      rw [List.nodup_append]
      refine ⟨h.nodup,by simp,?_⟩
      rintro a ha b hb rfl
      rw [List.mem_singleton] at hb
      exact (h.current slab hcur).2 (hb ▸ ha)
    · exact h.nodup

theorem keeps_finish (m : StringSlabs) : Keeps m m.finishCurrentSlab := by
  have hheap := m.finishCurrentSlab_heap
  constructor
  · rintro x ⟨hslab,hin,-⟩
    refine ⟨by rwa [hheap],by rwa [slab,hheap],fun hcur => ?_⟩
    rw [finishCurrentSlab_current] at hcur
    cases hcur
  · intro x _
    rw [read,read,hheap]
  · intro slab hs
    exact .inl ((finishCurrentSlab_owned m slab).mpr hs)

theorem keeps_heap {slab : Bytes} (hheap : m'.heap = m.heap ++ [slab])
    (hslabs : m'.slabs = m.slabs) (hcur : m.currentSlab = none)
    (hnew : ∀ current, m'.currentSlab = some current → current = m.heap.length) :
    Keeps m m' := by
  constructor
  · rintro x ⟨hslab,hin,-⟩
    refine ⟨by rw [hheap,List.length_append]; omega,?_,fun h => ?_⟩
    · rw [StringSlabs.slab] at hin ⊢
      rwa [hheap,List.getD_eq_getElem?_getD,List.getElem?_append_left hslab,
        ← List.getD_eq_getElem?_getD]
    · have heq := hnew _ h
      omega
  · rintro x ⟨hslab,-,-⟩
    rw [read,read,hheap,readAddress_slabs x.size hslab]
  · rintro slab (hs | hs)
    · exact .inl (hslabs ▸ hs)
    · rw [hcur] at hs
      cases hs

/-- A stretch that bytes may go to: in a slab, and behind whatever is in use there. -/
structure Destination (m m' : StringSlabs) (x : Stretch) : Prop where
  keeps : Keeps m m'
  slab : x.slab < m'.heap.length
  fits : x.offset+x.size ≤ (m'.slab x.slab).length
  fresh : ∀ y, m.InUse y → y.slab = x.slab → y.offset+y.size ≤ x.offset

theorem Destination.apart {x : Stretch} (h : Destination m m' x) {y : Stretch}
    (hy : m.InUse y) : y.Apart x := by
  by_cases hs : y.slab = x.slab
  · exact .inr (.inl (h.fresh y hy hs))
  · exact .inl hs

variable {x : Stretch} {bs : Bytes}

theorem fill_heap_length (s offset : Nat) (bs : Bytes) (m : StringSlabs) :
    (m.fill s offset bs).heap.length = m.heap.length := by
  simp [fill]

theorem fill_slab_other {s t : Nat} (h : s ≠ t) (offset : Nat) :
    (m.fill s offset bs).slab t = m.slab t := by
  simp [fill,slab,h]

theorem fill_slab_self {s : Nat} (hs : s < m.heap.length) (offset : Nat) :
    (m.fill s offset bs).slab s = writeAt (m.slab s) offset bs := by
  simp [fill,slab,hs]

theorem fill_slab_length {s offset : Nat} (h : offset ≤ (m.slab s).length) (t : Nat) :
    (m.slab t).length ≤ ((m.fill s offset bs).slab t).length := by
  by_cases hst : s = t
  · subst hst
    by_cases hs : s < m.heap.length
    · rw [fill_slab_self hs]
      simp only [writeAt,List.length_append,List.length_take,List.length_drop]
      omega
    · have hnone : m.heap[s]? = none := List.getElem?_eq_none (by omega)
      simp [slab,hnone]
  · rw [fill_slab_other hst]

theorem read_eq (m : StringSlabs) (y : Stretch) :
    m.read y = ((m.slab y.slab).drop y.offset).take y.size := rfl

theorem Destination.filled (h : Destination m m' x) {m'' : StringSlabs}
    (hheap : m''.heap = (m'.fill x.slab x.offset bs).heap)
    (hcur : m''.currentSlab = m'.currentSlab) (hused : m'.slabUsed ≤ m''.slabUsed)
    (howned : ∀ slab, m'.Owned slab → m''.Owned slab) :
    Keeps m m'' ∧ (bs.length = x.size → m''.read x = bs) := by
  have hslab : ∀ s, m''.slab s = (m'.fill x.slab x.offset bs).slab s := by
    intro s
    rw [StringSlabs.slab,StringSlabs.slab,hheap]
  have ho : x.offset ≤ (m'.slab x.slab).length := Nat.le_of_add_right_le h.fits
  refine ⟨⟨fun y hy => ?_,fun y hy => ?_,fun slab hs => howned slab (h.keeps.owned slab hs)⟩,?_⟩
  · have hy' := h.keeps.inUse y hy
    constructor
    · rw [hheap,fill_heap_length]
      exact hy'.slab
    · rw [hslab]
      exact hy'.inside.trans (fill_slab_length ho y.slab)
    · rw [hcur]
      exact fun hc => (hy'.behind hc).trans hused
  · rw [← h.keeps.read y hy,read_eq,read_eq,hslab]
    by_cases hs : y.slab = x.slab
    · rw [hs,fill_slab_self h.slab,writeAt_before (h.fresh y hy hs) ho]
    · rw [fill_slab_other (Ne.symm hs)]
  · intro hlen
    rw [read_eq,hslab,fill_slab_self h.slab,← hlen,writeAt_inside ho]

theorem large_destination (m : StringSlabs) (size : Nat) :
    Destination m (m.finishCurrentSlab.makeSlab size).2
      ⟨m.finishCurrentSlab.heap.length,0,size⟩ := by
  have hheap : (m.finishCurrentSlab.makeSlab size).2.heap =
      m.finishCurrentSlab.heap ++ [List.replicate size 0] := rfl
  constructor
  · refine (keeps_finish m).trans (keeps_heap rfl rfl m.finishCurrentSlab_current ?_)
    intro current hcur
    rw [makeSlab,finishCurrentSlab_current] at hcur
    cases hcur
  · rw [hheap]
    simp
  · rw [slab,hheap]
    simp
  · intro y hy heq
    have hlt := hy.slab
    rw [← finishCurrentSlab_heap] at hlt
    exact absurd heq (Nat.ne_of_lt hlt)

theorem Sound.large (h : Sound m) (size : Nat) (bs : Bytes) :
    let large := m.finishCurrentSlab.heap.length
    let m' := (m.finishCurrentSlab.makeSlab size).2.fill large 0 bs
    Sound { m' with slabs := m'.slabs ++ [large] } := by
  have hfinish := h.finish
  intro large m'
  have hcur : m'.currentSlab = none := m.finishCurrentSlab_current
  have hlen : m'.heap.length = large+1 := by
    rw [fill_heap_length,makeSlab,List.length_append]
    rfl
  constructor
  · exact fun _ => hfinish.idle m.finishCurrentSlab_current
  all_goals try (intro slab hslab; rw [hcur] at hslab; cases hslab)
  · intro slab hslab
    rw [hlen]
    rcases List.mem_append.mp hslab with hs | hs
    · exact Nat.lt_succ_of_lt (hfinish.stored slab hs)
    · rw [List.mem_singleton] at hs
      omega
  · rw [List.nodup_append]
    refine ⟨hfinish.nodup,by simp,?_⟩
    rintro a ha b hb rfl
    rw [List.mem_singleton] at hb
    exact absurd hb (Nat.ne_of_lt (hfinish.stored a ha))

theorem Sound.renew (h : Sound m) {size : Nat} (hsize : size ≤ defaultStringStorageBytes) :
    Sound m.renewSlab.2 ∧ m.renewSlab.2.currentSlab = some m.renewSlab.1 ∧
      m.renewSlab.2.slabUsed+size ≤ m.renewSlab.2.slabCapacity ∧
      Destination m m.renewSlab.2 ⟨m.renewSlab.1,m.renewSlab.2.slabUsed,size⟩ := by
  have hfinish := h.finish
  have hnone := m.finishCurrentSlab_current
  have hheap := m.finishCurrentSlab_heap
  have hslab : m.renewSlab.1 = m.heap.length := by
    simp [renewSlab,makeSlab,hheap]
  have hheap' : m.renewSlab.2.heap =
      m.finishCurrentSlab.heap ++ [List.replicate defaultStringStorageBytes 0] := rfl
  have hused : m.renewSlab.2.slabUsed = 0 := hfinish.idle hnone
  have hcur : m.renewSlab.2.currentSlab = some m.heap.length := congrArg some hslab
  have hroom : (m.renewSlab.2.slab m.heap.length).length = defaultStringStorageBytes := by
    rw [slab,hheap',hheap]
    simp
  have hstored : ∀ slab ∈ m.renewSlab.2.slabs, slab < m.heap.length := by
    intro slab hs
    have hlt := hfinish.stored slab hs
    rwa [hheap] at hlt
  have hlen : m.renewSlab.2.heap.length = m.heap.length+1 := by
    rw [hheap',hheap,List.length_append]
    rfl
  refine ⟨?_,rfl,by rw [hused]; simpa [renewSlab] using hsize,?_⟩
  · constructor
    · rw [hcur]
      nofun
    · intro slab _
      rw [hused]
      exact Nat.zero_le _
    · exact fun slab _ => rfl
    · intro slab hs
      cases hcur.symm.trans hs
      exact Nat.le_of_eq hroom.symm
    · intro slab hs
      cases hcur.symm.trans hs
      exact ⟨by omega,fun hin => Nat.lt_irrefl _ (hstored _ hin)⟩
    · intro slab hs
      have hlt := hstored slab hs
      omega
    · exact hfinish.nodup
  · rw [hslab,hused]
    constructor
    · refine (keeps_finish m).trans (keeps_heap hheap' rfl hnone ?_)
      intro current hs
      cases hcur.symm.trans hs
      rw [hheap]
    · rw [hlen]
      exact Nat.lt_succ_self _
    · rw [hroom]
      simpa using hsize
    · intro y hy heq
      exact absurd heq (Nat.ne_of_lt hy.slab)

theorem Sound.withRoom (h : Sound m) {size : Nat} (hsize : size ≤ defaultStringStorageBytes) :
    Sound (m.slabWithRoom size).2 ∧
      (m.slabWithRoom size).2.currentSlab = some (m.slabWithRoom size).1 ∧
      (m.slabWithRoom size).2.slabUsed+size ≤ (m.slabWithRoom size).2.slabCapacity ∧
      Destination m (m.slabWithRoom size).2
        ⟨(m.slabWithRoom size).1,(m.slabWithRoom size).2.slabUsed,size⟩ := by
  unfold slabWithRoom
  split
  · next slab hcur =>
    have hused := h.used slab hcur
    have hcapacity := h.capacity slab hcur
    have hfree : sub64 m.slabCapacity m.slabUsed = m.slabCapacity - m.slabUsed := by
      apply ReaderMemory.sub64_eq hused
      rw [hcapacity,defaultStringStorageBytes]
      decide
    rw [hfree]
    split
    · exact h.renew hsize
    · next hfits =>
      have hroom : m.slabUsed+size ≤ m.slabCapacity := by omega
      refine ⟨h,hcur,hroom,Keeps.refl m,(h.current slab hcur).1,?_,?_⟩
      · exact hroom.trans (h.room slab hcur)
      · intro y hy heq
        exact hy.behind (by rw [hcur,heq])
  · exact h.renew hsize

theorem Sound.small (h : Sound m) {s size : Nat} (hcur : m.currentSlab = some s)
    (hroom : m.slabUsed+size ≤ m.slabCapacity) (bs : Bytes) :
    Sound { m.fill s m.slabUsed bs with slabUsed := m.slabUsed+size } := by
  have hle : m.slabUsed ≤ (m.slab s).length := (h.used s hcur).trans (h.room s hcur)
  constructor
  · intro hnone
    cases hcur.symm.trans hnone
  · exact fun _ _ => hroom
  · exact h.capacity
  · intro t ht
    exact (h.room t ht).trans (fill_slab_length hle t)
  · intro t ht
    obtain ⟨hlt,hnot⟩ := h.current t ht
    exact ⟨(fill_heap_length s m.slabUsed bs m).symm ▸ hlt,hnot⟩
  · intro t ht
    exact (fill_heap_length s m.slabUsed bs m).symm ▸ h.stored t ht
  · exact h.nodup

def stretch (r : StringRef) : Option Stretch :=
  r.data.map fun address => ⟨address.1,address.2,r.size⟩

/-- The record is in the slabs as the string that was read. -/
def Places (m : StringSlabs) (r : StringRef) : Option Bytes → Prop
  | none => r = {}
  | some [] => r = ⟨none,0⟩
  | some s => ∃ slab offset, r = ⟨some (slab,offset),s.length⟩ ∧ s.length ≠ naStringLength ∧
      m.Owned slab ∧ m.InUse ⟨slab,offset,s.length⟩ ∧ m.read ⟨slab,offset,s.length⟩ = s

theorem Places.mono {r : StringRef} {s : Option Bytes} (h : Places m r s) (hk : Keeps m m') :
    Places m' r s := by
  match s with
  | none => exact h
  | some [] => exact h
  | some (b :: bs) =>
    obtain ⟨slab,offset,hr,hna,howned,huse,hread⟩ := h
    exact ⟨slab,offset,hr,hna,hk.owned slab howned,hk.inUse _ huse,(hk.read _ huse).trans hread⟩

structure Step (m : StringSlabs) (r : StringRef) (m' : StringSlabs) (s : Option Bytes) : Prop where
  sound : Sound m'
  keeps : Keeps m m'
  places : Places m' r s
  apart : ∀ x, stretch r = some x → m'.InUse x ∧ ∀ y, m.InUse y → y.Apart x

theorem Step.empty (h : Sound m) {r : StringRef} {s : Option Bytes} (hr : r.data = none)
    (hs : Places m r s) : Step m r m s := by
  refine ⟨h,Keeps.refl m,hs,?_⟩
  intro x hx
  rw [stretch,hr] at hx
  cases hx

end

end StringSlabs

open StringSlabs

theorem getDataInto_mirrors (slab offset size : Nat) (m : StringSlabs) :
    (getDataInto slab offset size m).Mirrors Exact SlabOp.toGetOp
      (fun m' bs => bs.length = size ∧ m' = m.fill slab offset bs) (getData size) :=
  ⟨rfl,fun _ hr => ⟨hr,rfl⟩⟩

theorem StringSlabs.Places.string {m : StringSlabs} {slab offset : Nat} {bs : Bytes} (hbs : bs ≠ [])
    (hna : bs.length ≠ naStringLength) (howned : m.Owned slab)
    (huse : m.InUse ⟨slab,offset,bs.length⟩)
    (hread : m.read ⟨slab,offset,bs.length⟩ = bs) :
    Places m ⟨some (slab,offset),bs.length⟩ (some bs) := by
  cases bs with
  | nil => exact absurd rfl hbs
  | cons b bs => exact ⟨slab,offset,rfl,hna,howned,huse,hread⟩

theorem StringSlabs.Destination.step {m m' m'' : StringSlabs} {x : Stretch} {bs : Bytes}
    (h : Destination m m' x) (hbs : bs ≠ []) (hlen : bs.length = x.size)
    (hna : x.size ≠ naStringLength) (hsound : Sound m'')
    (hheap : m''.heap = (m'.fill x.slab x.offset bs).heap)
    (hcur : m''.currentSlab = m'.currentSlab) (hused : m'.slabUsed ≤ m''.slabUsed)
    (howned : ∀ slab, m'.Owned slab → m''.Owned slab) (hx : m''.Owned x.slab)
    (hbehind : m''.currentSlab = some x.slab → x.offset+x.size ≤ m''.slabUsed) :
    Step m ⟨some (x.slab,x.offset),x.size⟩ m'' (some bs) := by
  obtain ⟨hkeeps,hread⟩ := h.filled hheap hcur hused howned
  have huse : m''.InUse x := by
    refine ⟨?_,?_,hbehind⟩
    · rw [hheap,fill_heap_length]
      exact h.slab
    · rw [StringSlabs.slab,hheap]
      exact h.fits.trans (fill_slab_length (Nat.le_of_add_right_le h.fits) x.slab)
  refine ⟨hsound,hkeeps,?_,?_⟩
  · rw [← hlen]
    refine Places.string hbs (hlen ▸ hna) hx ?_ ?_
    · rw [hlen]
      exact huse
    · rw [hlen]
      exact hread hlen
  · rintro y hy
    cases hy
    exact ⟨huse,fun z hz => h.apart hz⟩

/-- One record: the string that the plain reader returns, in a place of its own. -/
theorem readSlabRecord_mirrors {m : StringSlabs} (h : Sound m) :
    (readSlabRecord m).Mirrors Exact SlabOp.toGetOp (fun x s => Step m x.1 x.2 s)
      readStringRecord := by
  refine (Prog.relabel_mirrors (fun _ => rfl) readStringHeader).bind ?_
  rintro length _ rfl
  split
  · exact Step.empty h rfl rfl
  split
  · exact Step.empty h rfl rfl
  next hna hzero =>
  by_cases hmax : length > maxRCompatibleStringLength
  · rw [checkedRCompatibleStringSize,if_pos hmax]
    exact rfl
  rw [checkedRCompatibleStringSize,if_neg hmax]
  change Prog.Mirrors Exact SlabOp.toGetOp _ (if length > defaultStringStorageBytes then _ else _)
    (getData length >>= fun s => pure (some s))
  have hne : ∀ bs : Bytes, bs.length = length → bs ≠ [] := by
    rintro _ hlen rfl
    exact hzero hlen.symm
  split
  · refine (getDataInto_mirrors m.finishCurrentSlab.heap.length 0 length _).bind ?_
    rintro _ bs ⟨hlen,rfl⟩
    refine (m.large_destination length).step (hne bs hlen) hlen hna (h.large length bs) rfl rfl
      (Nat.le_refl _) ?_ ?_ ?_
    · rintro slab (hs | hs)
      · exact .inl (List.mem_append_left _ hs)
      · exact .inr hs
    · exact .inl (List.mem_append_right _ (List.mem_singleton_self _))
    · intro hs
      cases m.finishCurrentSlab_current.symm.trans hs
  · next hlarge =>
    obtain ⟨hsound,hcur,hroom,hdest⟩ := h.withRoom (Nat.le_of_not_lt hlarge)
    refine (getDataInto_mirrors (m.slabWithRoom length).1 (m.slabWithRoom length).2.slabUsed
      length _).bind ?_
    rintro _ bs ⟨hlen,rfl⟩
    refine hdest.step (hne bs hlen) hlen hna (hsound.small hcur hroom bs) rfl rfl
      (Nat.le_add_right _ _) ?_ ?_ ?_
    · exact fun slab hs => hs
    · exact .inr hcur
    · exact fun _ => Nat.le_refl _

theorem readSlabRecord_vouches {m : StringSlabs} (h : Sound m) :
    (readSlabRecord m).Vouches SlabOp.Fits fun x => Sound x.2 := by
  have hplain : ∀ {α : Type} (p : Reader α),
      (p.relabel SlabOp.plain).Vouches SlabOp.Fits fun _ => True :=
    fun p => (Prog.relabel_asks (fun _ => True.intro) p).vouches
  refine (hplain readStringHeader).bind fun length _ => ?_
  split
  · exact h
  split
  · exact h
  refine (hplain _).bind fun size _ => ?_
  split
  · refine ⟨?_,fun bs => h.large size bs⟩
    exact (m.large_destination size).fits
  · next hlarge =>
    obtain ⟨hsound,hcur,hroom,hdest⟩ := h.withRoom (Nat.le_of_not_lt hlarge)
    exact ⟨hdest.fits,fun bs => hsound.small hcur hroom bs⟩

theorem readStringSlabs_vouches {m : StringSlabs} (h : Sound m) (n : Nat) :
    (readStringSlabs n m).Vouches SlabOp.Fits fun x => Sound x.2 := by
  induction n generalizing m with
  | zero => exact h.finish
  | succ n ih =>
    refine (readSlabRecord_vouches h).bind fun x hx => ?_
    exact (ih hx).bind fun y hy => hy

structure StringSlabs.Steps (m : StringSlabs) (rs : List StringRef) (m' : StringSlabs)
    (ss : List (Option Bytes)) : Prop where
  sound : Sound m'
  keeps : Keeps m m'
  frozen : m'.currentSlab = none
  length : rs.length = ss.length
  places : ∀ (i : Nat) r s, rs[i]? = some r → ss[i]? = some s → Places m' r s
  apart : ∀ r ∈ rs, ∀ x, stretch r = some x → m'.InUse x ∧ ∀ y, m.InUse y → y.Apart x
  pairwise : rs.Pairwise fun r r' => ∀ x y, stretch r = some x → stretch r' = some y → x.Apart y

theorem StringSlabs.Steps.done {m : StringSlabs} (h : Sound m) :
    Steps m [] m.finishCurrentSlab [] :=
  ⟨h.finish,keeps_finish m,m.finishCurrentSlab_current,rfl,nofun,nofun,.nil⟩

theorem StringSlabs.Step.cons {m m₁ m' : StringSlabs} {r : StringRef} {s : Option Bytes}
    {rs : List StringRef} {ss : List (Option Bytes)} (h : Step m r m₁ s)
    (hs : Steps m₁ rs m' ss) : Steps m (r :: rs) m' (s :: ss) := by
  refine ⟨hs.sound,h.keeps.trans hs.keeps,hs.frozen,by simp [hs.length],?_,?_,?_⟩
  · intro i r' s' hr hs'
    cases i with
    | zero =>
      cases hr
      cases hs'
      exact h.places.mono hs.keeps
    | succ i => exact hs.places i r' s' hr hs'
  · intro r' hr x hx
    rcases List.mem_cons.mp hr with rfl | hr
    · obtain ⟨huse,hapart⟩ := h.apart x hx
      exact ⟨hs.keeps.inUse x huse,hapart⟩
    · obtain ⟨huse,hapart⟩ := hs.apart r' hr x hx
      exact ⟨huse,fun y hy => hapart y (h.keeps.inUse y hy)⟩
  · refine .cons ?_ hs.pairwise
    intro r' hr x y hx hy
    exact (hs.apart r' hr y hy).2 x (h.apart x hx).1

theorem readStringSlabs_mirrors {m : StringSlabs} (h : Sound m) (n : Nat) :
    (readStringSlabs n m).Mirrors Exact SlabOp.toGetOp (fun x ss => Steps m x.1 x.2 ss)
      (readStringPayloads n) := by
  induction n generalizing m with
  | zero => exact Steps.done h
  | succ n ih =>
    rw [readStringPayloads_succ]
    refine (readSlabRecord_mirrors h).bind fun x s hx => ?_
    exact (ih hx.sound).bind fun y ss hy => hx.cons hy

/-- A block reader in the states that `I` describes answers with as many bytes as were asked
for. -/
def AnswersExactly {σ : Type} (h : Handler GetOp Bytes ReadError σ) (I : σ → Prop) : Prop :=
  ∀ op s bs s', I s → h op s = .ok (bs,s') → Exact op bs ∧ I s'

def Shown {σ : Type} (st : BlockReader σ) : Prop := ∃ c : Cursor σ, Shows st c

theorem shows_channel {σ : Type} {S : BlockSource σ}
    {h : Handler GetOp Bytes ReadError (BlockReader σ)}
    (hh : ∀ op st c, Shows st c → Related Shows Eq (h op st) (cursor S op c)) {op : GetOp}
    {bs : Bytes} {st st' : BlockReader σ} {c : Cursor σ} (hc : Shows st c)
    (hop : h op st = .ok (bs,st')) : ∃ c', Shows st' c' ∧
      channel op (c.unroll S).bytes = .ok (bs,(c'.unroll S).bytes) := by
  have hrel := hh op st c hc
  rw [hop] at hrel
  obtain ⟨c',hcursor,hc'⟩ := hrel.ok_left
  exact ⟨c',hc',cursor_unrolled_channel hc.pending_le hcursor⟩

theorem answersExactly_of_shows {σ : Type} {S : BlockSource σ}
    {h : Handler GetOp Bytes ReadError (BlockReader σ)}
    (hh : ∀ op st c, Shows st c → Related Shows Eq (h op st) (cursor S op c)) :
    AnswersExactly h Shown := by
  rintro op st bs st' ⟨c,hc⟩ hop
  obtain ⟨c',hc',hchannel⟩ := shows_channel hh hc hop
  exact ⟨channel_exact op _ bs _ hchannel,c',hc'⟩

theorem StringSlabs.Places.value {m : StringSlabs} {r : StringRef} {s : Option Bytes}
    (h : Places m r s) : r.value m.heap = s := by
  match s with
  | none =>
    obtain rfl := h
    rfl
  | some [] =>
    obtain rfl := h
    rfl
  | some (b :: bs) =>
    obtain ⟨slab,offset,rfl,hna,-,-,hread⟩ := h
    rw [StringRef.value_some m.heap hna rfl]
    exact congrArg some hread

def StringSlabs.Retains (m : StringSlabs) (r : StringRef) : Option Bytes → Prop
  | none => r = {}
  | some [] => r = ⟨none,0⟩
  | some s => ∃ slab offset, r = ⟨some (slab,offset),s.length⟩ ∧ slab ∈ m.slabs ∧
      offset+s.length ≤ (m.slab slab).length ∧ m.read ⟨slab,offset,s.length⟩ = s

theorem StringSlabs.Places.retains {m : StringSlabs} {r : StringRef} {s : Option Bytes}
    (h : Places m r s) (hdone : m.currentSlab = none) : Retains m r s := by
  match s with
  | none => exact h
  | some [] => exact h
  | some (b :: bs) =>
    obtain ⟨slab,offset,hr,-,howned,huse,hread⟩ := h
    refine ⟨slab,offset,hr,?_,huse.inside,hread⟩
    rcases howned with hs | hs
    · exact hs
    · rw [hdone] at hs
      cases hs

theorem Stretch.Apart.symm {x y : Stretch} (h : x.Apart y) : y.Apart x := by
  rcases h with h | h | h
  · exact .inl (Ne.symm h)
  · exact .inr (.inr h)
  · exact .inr (.inl h)

theorem StringSlabs.Steps.values {m m' : StringSlabs} {rs : List StringRef}
    {ss : List (Option Bytes)} (h : Steps m rs m' ss) :
    rs.map (StringRef.value m'.heap) = ss := by
  apply List.ext_getElem
  · simp [h.length]
  · intro i hr hs
    rw [List.length_map] at hr
    rw [List.getElem_map]
    exact (h.places i _ _ (List.getElem?_eq_getElem hr) (List.getElem?_eq_getElem hs)).value

theorem StringSlabs.Steps.apart_of_ne {m m' : StringSlabs} {rs : List StringRef}
    {ss : List (Option Bytes)} (h : Steps m rs m' ss) {i j : Nat} {r r' : StringRef}
    {x y : Stretch} (hij : i ≠ j) (hr : rs[i]? = some r) (hr' : rs[j]? = some r')
    (hx : stretch r = some x) (hy : stretch r' = some y) : x.Apart y := by
  obtain ⟨hi,rfl⟩ := List.getElem?_eq_some_iff.mp hr
  obtain ⟨hj,rfl⟩ := List.getElem?_eq_some_iff.mp hr'
  have hpairwise := List.pairwise_iff_getElem.mp h.pairwise
  rcases Nat.lt_or_gt_of_ne hij with hlt | hlt
  · exact hpairwise i j hi hj hlt x y hx hy
  · exact (hpairwise j i hj hi hlt y x hy hx).symm

/-- Records never share bytes and nothing moves: the references that `read_string_payloads`
leaves lie apart, in slabs that the storage has, and show the strings that were read. -/
theorem string_slabs_hold (n : Nat) :
    (readStringSlabs n {}).Asks SlabOp.Fits ∧
    (∀ (σ : Type) (h : Handler GetOp Bytes ReadError σ) (I : σ → Prop), AnswersExactly h I →
      ∀ s, I s →
      (∀ records m s',
        (readStringSlabs n {}).run (fun op => h op.toGetOp) s = .ok ((records,m),s') →
        ∃ strings, (readStringPayloads n).run h s = .ok (strings,s') ∧
          records.map (StringRef.value m.heap) = strings ∧
          (∀ (i : Nat) r string, records[i]? = some r → strings[i]? = some string →
            m.Retains r string) ∧
          (∀ (i j : Nat) r r' x y, i ≠ j → records[i]? = some r → records[j]? = some r' →
            stretch r = some x → stretch r' = some y → x.Apart y) ∧ m.slabs.Nodup) ∧
      ∀ strings s', (readStringPayloads n).run h s = .ok (strings,s') →
        ∃ x, (readStringSlabs n {}).run (fun op => h op.toGetOp) s = .ok (x,s')) ∧
    ∀ (σ : Type) (S : BlockSource σ), AnswersExactly (blockCompressReader S) Shown ∧
      AnswersExactly (blockCompressReaderMT S) Shown ∧
      ∀ source, Shown (BlockReader.start source : BlockReader σ) := by
  refine ⟨(readStringSlabs_vouches Sound.start n).asks,?_,?_⟩
  · intro σ h I hanswers s hs
    have hrun := run_mirrors hanswers (readStringSlabs_mirrors Sound.start n) hs
    constructor
    · intro records m s' hr
      rw [hr] at hrun
      obtain ⟨strings,hstrings,hsteps⟩ := hrun.ok_left
      refine ⟨strings,hstrings,hsteps.values,?_,?_,hsteps.sound.nodup⟩
      · intro i r string hri hsi
        exact (hsteps.places i r string hri hsi).retains hsteps.frozen
      · intro i j r r' x y hij hri hrj hx hy
        exact hsteps.apart_of_ne hij hri hrj hx hy
    · intro strings s' hr
      rw [hr] at hrun
      obtain ⟨x,hx,-⟩ := hrun.ok_right
      exact ⟨x,hx⟩
  · intro σ S
    exact ⟨answersExactly_of_shows (blockCompressReader_cursor S),
      answersExactly_of_shows (blockCompressReaderMT_cursor S),
      fun source => ⟨Cursor.start source,Shows.start source⟩⟩

end QData
