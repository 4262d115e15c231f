import QData.BlockReader
import QData.ObjectCodec
/-! The storage of a string vector: records packed into slabs by its builder, and the views
that its references give. -/
set_option autoImplicit false

namespace QData
open Words

def defaultStringStorageBytes : Nat := 2 ^ 20

/-- `string_ref`. An address is the number of a slab, in the order of their allocation, and
an offset in it. -/
structure StringRef where
  data : Option (Nat × Nat) := none
  size : Nat := naStringLength
  deriving DecidableEq, Repr

def StringRef.isNa (r : StringRef) : Bool := r.size == naStringLength

def readAddress (slabs : List Bytes) (address : Nat × Nat) (size : Nat) : Bytes :=
  ((slabs.getD address.1 []).drop address.2).take size

def StringRef.view (slabs : List Bytes) (r : StringRef) : Bytes :=
  if r.isNa then [] else (r.data.map fun address => readAddress slabs address r.size).getD []

/-- `string_storage_builder`. Without a current slab nothing is used and there is no
capacity. -/
structure StringStorageBuilder where
  slabs : List Bytes := []
  defaultSlabBytes : Nat := defaultStringStorageBytes
  currentSlab : Option Bytes := none
  used : Nat := 0
  capacity : Nat := 0

def encodeStringHeader (stringLength : Nat) : Bytes :=
  if stringLength < maxString8BitLength then toBytes 1 stringLength
  else if stringLength < maxString16BitLength then stringHeader16 :: toBytes 2 stringLength
  else stringHeader32 :: toBytes 4 stringLength

namespace StringStorageBuilder

def finalizeCurrentSlab (b : StringStorageBuilder) : StringStorageBuilder :=
  match b.currentSlab with
  | some slab => { b with slabs := b.slabs ++ [slab], currentSlab := none, used := 0, capacity := 0 }
  | none => b

def allocateRecord (bytes : Nat) (b : StringStorageBuilder) : (Nat × Nat) × StringStorageBuilder :=
  let b :=
    if b.currentSlab = none ∨ b.capacity - b.used < bytes then
      let b := b.finalizeCurrentSlab
      let capacity := max b.defaultSlabBytes bytes
      { b with capacity := capacity, currentSlab := some (List.replicate capacity 0), used := 0 }
    else b
  ((b.slabs.length,b.used),{ b with used := b.used+bytes })

def copy (offset : Nat) (bs : Bytes) (b : StringStorageBuilder) : StringStorageBuilder :=
  { b with currentSlab := b.currentSlab.map fun slab => writeAt slab offset bs }

/-- The length is narrowed to 32 bits; what is copied is not. -/
def appendString (value : Option Bytes) (b : StringStorageBuilder) :
    StringRef × StringStorageBuilder :=
  match value with
  | none => ({},b)
  | some s =>
      let stringLength := s.length % 2 ^ 32
      let header := encodeStringHeader stringLength
      let payloadSize := s.length
      let (record,b) := b.allocateRecord (header.length+payloadSize)
      let b := b.copy record.2 header
      let b := if payloadSize > 0 then b.copy (record.2+header.length) s else b
      ({ data := some (record.1,record.2+header.length), size := stringLength },b)

def freeze (b : StringStorageBuilder) : List Bytes := b.finalizeCurrentSlab.slabs

def memory (b : StringStorageBuilder) : List Bytes := b.slabs ++ b.currentSlab.toList

theorem freeze_eq (b : StringStorageBuilder) : b.freeze = b.memory := by
  unfold freeze finalizeCurrentSlab memory
  cases h : b.currentSlab <;> simp

end StringStorageBuilder

def appendStrings : List (Option Bytes) → StringStorageBuilder →
    List StringRef × StringStorageBuilder
  | [], b => ([],b)
  | value :: values, b =>
      let (r,b) := b.appendString value
      let (rs,b) := appendStrings values b
      (r :: rs,b)

structure StringVector where
  storage : List Bytes
  records : List StringRef

def StringVector.assignStrings (values : List (Option Bytes)) : StringVector :=
  let (records,builder) := appendStrings values {}
  ⟨builder.freeze,records⟩

def StringRef.value (slabs : List Bytes) (r : StringRef) : Option Bytes :=
  if r.isNa then none else some (r.view slabs)

theorem StringRef.value_na (slabs : List Bytes) {r : StringRef} (h : r.size = naStringLength) :
    r.value slabs = none := by
  have hna : r.isNa = true := beq_iff_eq.mpr h
  rw [StringRef.value,if_pos hna]

theorem StringRef.value_some (slabs : List Bytes) {r : StringRef} {address : Nat × Nat}
    (h : r.size ≠ naStringLength) (ha : r.data = some address) :
    r.value slabs = some (readAddress slabs address r.size) := by
  have hna : ¬ r.isNa = true := by simpa [StringRef.isNa] using h
  rw [StringRef.value,if_neg hna,StringRef.view,if_neg hna,ha,Option.map_some,Option.getD_some]

def StringVector.values (x : StringVector) : List (Option Bytes) :=
  x.records.map (StringRef.value x.storage)

/-! A builder only ever writes behind what it has used. -/

namespace StringStorageBuilder

structure Valid (b : StringStorageBuilder) : Prop where
  none : b.currentSlab = none → b.used = 0
  some : ∀ slab, b.currentSlab = some slab → slab.length = b.capacity ∧ b.used ≤ b.capacity

def mark (b : StringStorageBuilder) : Nat × Nat := (b.slabs.length,b.used)

end StringStorageBuilder

def Before (address : Nat × Nat) (size : Nat) (mark : Nat × Nat) : Prop :=
  address.1 < mark.1 ∨ (address.1 = mark.1 ∧ address.2+size ≤ mark.2)

theorem Before.mono {address : Nat × Nat} {size size' slab used used' : Nat}
    (h : Before address size (slab,used)) (hs : size' ≤ size) (hu : used ≤ used') :
    Before address size' (slab,used') := by
  rcases h with hlt | ⟨heq,hle⟩
  · exact .inl hlt
  · refine .inr ⟨heq,?_⟩
    simp only at hle ⊢
    omega

theorem readAddress_slabs {slabs : List Bytes} {address : Nat × Nat} (size : Nat)
    (h : address.1 < slabs.length) (more : List Bytes) :
    readAddress (slabs ++ more) address size = readAddress slabs address size := by
  simp only [readAddress,List.getD_eq_getElem?_getD,List.getElem?_append_left h]

theorem readAddress_take (slabs : List Bytes) (address : Nat × Nat) {n m : Nat} (h : n ≤ m) :
    readAddress slabs address n = (readAddress slabs address m).take n := by
  rw [readAddress,readAddress,List.take_take,Nat.min_eq_left h]

theorem readAddress_current (slabs : List Bytes) (slab : Bytes) {address : Nat × Nat} (size : Nat)
    (h : address.1 = slabs.length) :
    readAddress (slabs ++ [slab]) address size = (slab.drop address.2).take size := by
  simp [readAddress,h]

theorem readAddress_writeAt {slabs : List Bytes} {slab bs : Bytes} {offset size : Nat}
    {address : Nat × Nat} (ho : offset ≤ slab.length)
    (h : Before address size (slabs.length,offset)) :
    readAddress (slabs ++ [writeAt slab offset bs]) address size =
      readAddress (slabs ++ [slab]) address size := by
  rcases h with h | ⟨h,hs⟩
  · rw [readAddress_slabs size h,readAddress_slabs size h]
  · rw [readAddress_current _ _ _ h,readAddress_current _ _ _ h,writeAt_before hs ho]

namespace StringStorageBuilder
variable {b : StringStorageBuilder}

theorem allocateRecord_reuse {n : Nat} (h : ¬ (b.currentSlab = none ∨ b.capacity - b.used < n)) :
    b.allocateRecord n = (b.mark,{ b with used := b.used+n }) := by
  rw [allocateRecord,if_neg h,mark]

theorem allocateRecord_new {n : Nat} (h : b.currentSlab = none ∨ b.capacity - b.used < n) :
    b.allocateRecord n = ((b.memory.length,0),
      { slabs := b.memory, defaultSlabBytes := b.defaultSlabBytes,
        currentSlab := some (List.replicate (max b.defaultSlabBytes n) 0),
        used := n, capacity := max b.defaultSlabBytes n }) := by
  rw [allocateRecord,if_pos h]
  unfold finalizeCurrentSlab memory
  cases hslab : b.currentSlab <;> simp

theorem allocateRecord_spec (hb : b.Valid) (n : Nat) :
    ∃ slab c, b.allocateRecord n = ((c.slabs.length,c.used - n),c) ∧ c.currentSlab = some slab ∧
      slab.length = c.capacity ∧ n ≤ c.used ∧ c.used ≤ c.capacity ∧
      ∀ address size, Before address size b.mark →
        Before address size (c.slabs.length,c.used - n) ∧
        readAddress c.memory address size = readAddress b.memory address size := by
  by_cases h : b.currentSlab = none ∨ b.capacity - b.used < n
  · rw [allocateRecord_new h]
    refine ⟨List.replicate (max b.defaultSlabBytes n) 0,⟨b.memory,b.defaultSlabBytes,_,n,_⟩,?_,rfl,
      List.length_replicate,Nat.le_refl n,Nat.le_max_right _ _,?_⟩
    · simp only [Nat.sub_self]
    · intro address size hbefore
      simp only [memory]
      cases hslab : b.currentSlab with
      | none =>
        have hused := hb.none hslab
        rw [mark,hused] at hbefore
        simp only [Option.toList,List.append_nil,Nat.sub_self]
        refine ⟨hbefore,?_⟩
        rcases hbefore with hlt | ⟨heq,hz⟩
        · rw [readAddress_slabs size hlt]
        · obtain rfl : size = 0 := by omega
          simp [readAddress]
      | some slab =>
        have hlt : address.1 < (b.slabs ++ [slab]).length := by
          rw [List.length_append,List.length_singleton]
          rcases hbefore with hlt | ⟨heq,_⟩
          · have : address.1 < b.slabs.length := hlt
            omega
          · have : address.1 = b.slabs.length := heq
            omega
        exact ⟨.inl hlt,readAddress_slabs size hlt _⟩
  · obtain ⟨slab,hslab⟩ := Option.ne_none_iff_exists'.mp (not_or.mp h).1
    obtain ⟨hlen,hused⟩ := hb.some slab hslab
    have hroom := (not_or.mp h).2
    rw [allocateRecord_reuse h]
    refine ⟨slab,{ b with used := b.used+n },?_,hslab,hlen,Nat.le_add_left _ _,?_,?_⟩
    · simp only [mark,Nat.add_sub_cancel]
    · simp only
      omega
    · intro address size hbefore
      simp only [Nat.add_sub_cancel]
      exact ⟨hbefore,rfl⟩

/-- What an append leaves: a record with the given bytes, and everything before it. -/
theorem appendString_spec (hb : b.Valid) (s : Bytes) :
    ∃ address, (b.appendString (some s)).1 = ⟨some address,s.length % 2 ^ 32⟩ ∧
      (b.appendString (some s)).2.Valid ∧
      Before address s.length (b.appendString (some s)).2.mark ∧
      readAddress (b.appendString (some s)).2.memory address s.length = s ∧
      ∀ address size, Before address size b.mark →
        Before address size (b.appendString (some s)).2.mark ∧
        readAddress (b.appendString (some s)).2.memory address size =
          readAddress b.memory address size := by
  obtain ⟨slab,c,halloc,hslab,hlen,hn,hused,hbefore⟩ :=
    allocateRecord_spec hb ((encodeStringHeader (s.length % 2 ^ 32)).length+s.length)
  simp only [appendString,halloc]
  generalize encodeStringHeader (s.length % 2 ^ 32) = header at *
  obtain ⟨offset,hoffset⟩ : ∃ offset, c.used = offset+(header.length+s.length) :=
    ⟨c.used - (header.length+s.length),by omega⟩
  have hstart : c.used - (header.length+s.length) = offset := by omega
  rw [hstart] at hbefore ⊢
  have hheader : (writeAt slab offset header).length = slab.length := length_writeAt (by omega)
  -- nothing is copied for an empty string, and copying it would change nothing
  have hcopy : (if s.length > 0 then (c.copy offset header).copy (offset+header.length) s
      else c.copy offset header) =
      { c with
        currentSlab := some (writeAt (writeAt slab offset header) (offset+header.length) s) } := by
    split
    · simp only [copy,hslab,Option.map_some]
    · next hz =>
      have hnil : s = [] := List.eq_nil_of_length_eq_zero (by omega)
      simp only [hnil,writeAt_nil,copy,hslab,Option.map_some]
  rw [hcopy]
  refine ⟨_,rfl,⟨by simp,?_⟩,.inr ⟨rfl,?_⟩,?_,?_⟩
  · rintro _ ⟨⟩
    refine ⟨?_,hused⟩
    rw [length_writeAt (by rw [hheader]; omega),hheader,hlen]
  · simp only [mark]
    omega
  · rw [memory,Option.toList,readAddress_current _ _ _ rfl]
    exact writeAt_inside (by rw [hheader]; omega)
  · intro address size h
    obtain ⟨hb,hread⟩ := hbefore address size h
    have hstay : offset ≤ c.used := by omega
    refine ⟨hb.mono (Nat.le_refl size) hstay,?_⟩
    have hb' : Before address size (c.slabs.length,offset+header.length) :=
      hb.mono (Nat.le_refl size) (Nat.le_add_right _ _)
    rw [← hread]
    simp only [memory,hslab,Option.toList]
    rw [readAddress_writeAt (by rw [hheader]; omega) hb',readAddress_writeAt (by omega) hb]

end StringStorageBuilder

/-! From one append to all of them. -/

open StringStorageBuilder

/-- A reference whose bytes lie in front of the mark. -/
def StringRef.Stored (b : StringStorageBuilder) (r : StringRef) : Prop :=
  ∀ address, r.data = some address → Before address r.size b.mark

def StringStorageBuilder.Keeps (b c : StringStorageBuilder) : Prop :=
  ∀ r : StringRef, r.Stored b → r.Stored c ∧ r.value c.memory = r.value b.memory

theorem keeps_of_read {b c : StringStorageBuilder}
    (h : ∀ address size, Before address size b.mark → Before address size c.mark ∧
      readAddress c.memory address size = readAddress b.memory address size) : b.Keeps c := by
  intro r hr
  refine ⟨fun address ha => (h address r.size (hr address ha)).1,?_⟩
  unfold StringRef.value StringRef.view
  cases ha : r.data with
  | none => rfl
  | some address => rw [Option.map_some,Option.map_some,(h address r.size (hr address ha)).2]

theorem StringStorageBuilder.Keeps.trans {b c d : StringStorageBuilder} (h : b.Keeps c)
    (k : c.Keeps d) : b.Keeps d := fun r hr =>
  ⟨(k r (h r hr).1).1,((k r (h r hr).1).2).trans (h r hr).2⟩

/-- What a reference shows of the string it was made from. -/
def narrowed : Option Bytes → Option Bytes
  | none => none
  | some s =>
      if s.length % 2 ^ 32 = naStringLength then none else some (s.take (s.length % 2 ^ 32))

theorem appendString_keeps {b : StringStorageBuilder} (hb : b.Valid) (value : Option Bytes) :
    (b.appendString value).2.Valid ∧ b.Keeps (b.appendString value).2 ∧
      (b.appendString value).1.Stored (b.appendString value).2 ∧
      (b.appendString value).1.value (b.appendString value).2.memory = narrowed value := by
  cases value with
  | none =>
    refine ⟨hb,fun r hr => ⟨hr,rfl⟩,?_,rfl⟩
    rintro _ ⟨⟩
  | some s =>
    obtain ⟨address,hr,hvalid,hbefore,hread,hkeeps⟩ := appendString_spec hb s
    have hle : s.length % 2 ^ 32 ≤ s.length := Nat.mod_le _ _
    refine ⟨hvalid,keeps_of_read hkeeps,?_,?_⟩
    · rw [hr]
      rintro _ ⟨⟩
      exact hbefore.mono hle (Nat.le_refl _)
    · have hview := readAddress_take (b.appendString (some s)).2.memory address hle
      rw [hread] at hview
      rw [hr]
      by_cases hna : s.length % 2 ^ 32 = naStringLength
      · rw [StringRef.value_na _ hna,narrowed,if_pos hna]
      · rw [StringRef.value_some _ hna rfl,narrowed,if_neg hna,hview]

theorem appendStrings_spec (values : List (Option Bytes)) {b : StringStorageBuilder}
    (hb : b.Valid) :
    (appendStrings values b).2.Valid ∧ b.Keeps (appendStrings values b).2 ∧
      (∀ r ∈ (appendStrings values b).1, r.Stored (appendStrings values b).2) ∧
      (appendStrings values b).1.map (StringRef.value (appendStrings values b).2.memory) =
        values.map narrowed := by
  induction values generalizing b with
  | nil => exact ⟨hb,fun r hr => ⟨hr,rfl⟩,by simp [appendStrings],rfl⟩
  | cons value values ih =>
    obtain ⟨hv,hk,hs,hvalue⟩ := appendString_keeps hb value
    obtain ⟨hv',hk',hs',hvalues⟩ := ih hv
    refine ⟨hv',hk.trans hk',?_,?_⟩
    · intro r hr
      rcases List.mem_cons.mp hr with rfl | hr
      · exact (hk' _ hs).1
      · exact hs' r hr
    · simp only [appendStrings,List.map_cons,hvalues,(hk' _ hs).2,hvalue]

theorem length_appendStrings (values : List (Option Bytes)) (b : StringStorageBuilder) :
    (appendStrings values b).1.length = values.length := by
  induction values generalizing b with
  | nil => rfl
  | cons value values ih => rw [appendStrings,List.length_cons,List.length_cons,ih]

theorem valid_empty : ({} : StringStorageBuilder).Valid := ⟨fun _ => rfl,by simp⟩

theorem assignStrings_values (values : List (Option Bytes)) :
    (StringVector.assignStrings values).values = values.map narrowed := by
  have h := (appendStrings_spec values valid_empty).2.2.2
  rwa [← freeze_eq] at h

theorem narrowed_eq_iff {value : Option Bytes} :
    narrowed value = value ↔ ∀ s, value = some s → s.length < naStringLength := by
  cases value with
  | none => simp [narrowed]
  | some s =>
    have hna : naStringLength = 2 ^ 32 - 1 := rfl
    simp only [narrowed,Option.some.injEq,forall_eq']
    constructor
    · intro h
      split at h
      · cases h
      · next hne =>
        have hlen := congrArg List.length (Option.some.inj h)
        rw [List.length_take] at hlen
        have hlt := Nat.mod_lt s.length (show 0 < 2 ^ 32 by decide)
        omega
    · intro h
      rw [if_neg (by omega),List.take_of_length_le (by omega)]

theorem map_narrowed_iff {values : List (Option Bytes)} :
    values.map narrowed = values ↔ ∀ s, some s ∈ values → s.length < naStringLength := by
  constructor
  · intro h s hs
    have hid : values.map narrowed = values.map id := by rw [h,List.map_id]
    exact narrowed_eq_iff.mp (List.map_inj_left.mp hid (some s) hs) s rfl
  · intro h
    have hid : values.map narrowed = values.map id := List.map_inj_left.mpr fun value hv =>
      narrowed_eq_iff.mpr fun s hs => h s (hs ▸ hv)
    rw [hid,List.map_id]

/-- What a string vector is supposed to be: the strings it was made from, one record each, at
every moment from its append on, and to the writer the same thing as the strings. -/
structure LosesNothing (values : List (Option Bytes)) : Prop where
  count : (StringVector.assignStrings values).records.length = values.length
  appended : ∀ first later, first <+: values →
    (appendStrings first {}).1.map (StringRef.value
      (appendStrings later (appendStrings first {}).2).2.memory) = first
  frozen : (StringVector.assignStrings values).values = values
  serialized : ∀ maxDepth access attrs,
    streamWrite maxDepth (.vector access (.string (StringVector.assignStrings values).values) attrs) =
      streamWrite maxDepth (.vector access (.string values) attrs)

/-- Nothing is lost exactly when no string is longer than the 32 bits of its reference can
say, with the length that stands for NA left out. -/
theorem string_vector_iff (values : List (Option Bytes)) :
    LosesNothing values ↔ ∀ s, some s ∈ values → s.length < naStringLength := by
  constructor
  · intro h
    rw [← map_narrowed_iff,← assignStrings_values]
    exact h.frozen
  · intro h
    have hfrozen : (StringVector.assignStrings values).values = values := by
      rw [assignStrings_values,map_narrowed_iff]
      exact h
    refine ⟨length_appendStrings values {},?_,hfrozen,fun maxDepth access attrs => by rw [hfrozen]⟩
    intro first later hfirst
    obtain ⟨hv,_,hs,hvalues⟩ := appendStrings_spec first valid_empty
    obtain ⟨_,hkeeps,_,_⟩ := appendStrings_spec later hv
    have hsame : ∀ r ∈ (appendStrings first {}).1,
        r.value (appendStrings later (appendStrings first {}).2).2.memory =
          r.value (appendStrings first {}).2.memory := fun r hr => (hkeeps r (hs r hr)).2
    rw [List.map_inj_left.mpr hsame,hvalues,map_narrowed_iff]
    exact fun s hm => h s (hfirst.subset hm)

theorem assignStrings_long {s : Bytes} (h : s.length = naStringLength) :
    (StringVector.assignStrings [some s]).values = [none] := by
  have hlen : s.length % 2 ^ 32 = naStringLength := by
    rw [h]
    rfl
  rw [assignStrings_values,List.map_cons,narrowed,if_pos hlen]
  rfl

/-- A string of 2^32-1 bytes turns into NA, and a write that should be rejected is not. -/
theorem string_vector_long : ∃ s : Bytes, s.length = naStringLength ∧ ¬ LosesNothing [some s] ∧
    (streamWrite 1 (.vector .direct (.string [some s]) [])).error ≠ none ∧
    (streamWrite 1 (.vector .direct
      (.string (StringVector.assignStrings [some s]).values) [])).error = none := by
  obtain ⟨s,hs⟩ : ∃ s : Bytes, s.length = naStringLength :=
    ⟨List.replicate naStringLength 0,List.length_replicate⟩
  refine ⟨s,hs,fun h => ?_,fun h => ?_,?_⟩
  · have hfrozen := h.frozen
    rw [assignStrings_long hs] at hfrozen
    cases hfrozen
  · have hfits := (streamWrite_error.mp h).2.1.2.1 s List.mem_cons_self
    rw [hs] at hfits
    revert hfits
    decide
  · rw [assignStrings_long hs]
    rfl

end QData
