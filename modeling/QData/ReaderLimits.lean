import QData.ObjectCodec
import QData.StringRecords
import QData.Lib.Requests
/-! Whatever bytes it is given, the reader returns only objects that the writer accepts. -/
set_option autoImplicit false

namespace QData
open Words Requests

def Exact (op : GetOp) (bs : Bytes) : Prop := bs.length = op.size

theorem channel_exact (op : GetOp) (s bs s' : Bytes) (h : channel op s = .ok (bs,s')) :
    Exact op bs := (channel_eq_ok.mp h).1

def GetOp.Addressable (op : GetOp) : Prop := op.size < 2 ^ 64

/-- Answered exactly, the reader asks for no more than that and returns only what `Q` admits. -/
abbrev Limited {α : Type} (p : Reader α) (Q : α → Prop) : Prop :=
  p.Meets Exact GetOp.Addressable Q

def Leaf.Fits (leaf : Leaf) : Prop :=
  leaf.size ≤ maxRCompatibleVectorLength ∧ leaf.StringsFit

def CellsFit (cells : List Leaf) : Prop := ∀ leaf ∈ cells, leaf.Fits

theorem CellsFit.getD {cells : List Leaf} (h : CellsFit cells) (address : Nat) :
    (cells.getD address (.raw [])).Fits := by
  rw [List.getD_eq_getElem?_getD]
  cases hc : cells[address]? with
  | none => exact ⟨Nat.zero_le _,trivial⟩
  | some leaf => exact h leaf (List.mem_of_getElem? hc)

theorem CellsFit.set {cells : List Leaf} (h : CellsFit cells) (address : Nat) {leaf : Leaf}
    (hl : leaf.Fits) : CellsFit (cells.set address leaf) := by
  intro x hx
  rcases List.mem_or_eq_of_mem_set hx with hx | rfl
  · exact h x hx
  · exact hl

/-- Whichever vectors are put into it, the shell becomes an object that `d` scopes can
write. -/
def Shell.Writable (d : Nat) (x : Shell) : Prop :=
  ∀ cells, CellsFit cells → (x.resolve cells).WithinLimits ∧ (x.resolve cells).depth ≤ d

def AttrsWritable (d : Nat) (attrs : List (Bytes × Shell)) : Prop :=
  ∀ cells, CellsFit cells → AttrsWithinLimits (attrsToValues (resolveAttrs cells attrs)) ∧
    attrsDepth (attrsToValues (resolveAttrs cells attrs)) ≤ d

def ValuesWritable (d : Nat) (values : List Shell) : Prop :=
  ∀ cells, CellsFit cells → ValuesWithinLimits (objectsToValues (resolveValues cells values)) ∧
    valuesDepth (objectsToValues (resolveValues cells values)) ≤ d

@[simp] theorem length_resolveAttrs (cells : List Leaf) (attrs : List (Bytes × Shell)) :
    (attrsToValues (resolveAttrs cells attrs)).length = attrs.length := by
  induction attrs with
  | nil => rfl
  | cons a attrs ih =>
    obtain ⟨name,x⟩ := a
    simp only [resolveAttrs,attrsToValues,List.length_cons,ih]

@[simp] theorem length_resolveValues (cells : List Leaf) (values : List Shell) :
    (objectsToValues (resolveValues cells values)).length = values.length := by
  induction values with
  | nil => rfl
  | cons x values ih => simp only [resolveValues,objectsToValues,List.length_cons,ih]

theorem AttrsWritable.cons {d : Nat} {name : Bytes} {x : Shell} {rest : List (Bytes × Shell)}
    (hn : name.length ≤ maxRCompatibleStringLength) (hx : x.Writable d)
    (hr : AttrsWritable d rest) : AttrsWritable d ((name,x) :: rest) := by
  intro cells hc
  exact ⟨⟨hn,(hx cells hc).1,(hr cells hc).1⟩,max_le (hx cells hc).2 (hr cells hc).2⟩

theorem ValuesWritable.cons {d : Nat} {x : Shell} {rest : List Shell} (hx : x.Writable d)
    (hr : ValuesWritable d rest) : ValuesWritable d (x :: rest) := by
  intro cells hc
  exact ⟨⟨(hx cells hc).1,(hr cells hc).1⟩,max_le (hx cells hc).2 (hr cells hc).2⟩

theorem Shell.Writable.vector {d : Nat} {address : Nat} {attrs : List (Bytes × Shell)}
    (hl : attrs.length ≤ maxRCompatibleAttrCount) (ha : AttrsWritable d attrs) :
    (Shell.vector address attrs).Writable (d+1) := by
  intro cells hc
  obtain ⟨hw,hd⟩ := ha cells hc
  refine ⟨⟨(hc.getD address).1,(hc.getD address).2,?_,hw⟩,?_⟩
  · rwa [length_resolveAttrs]
  · have hdepth : ((Shell.vector address attrs).resolve cells).depth =
        1+attrsDepth (attrsToValues (resolveAttrs cells attrs)) := rfl
    omega

theorem Shell.Writable.list {d : Nat} {values : List Shell} {attrs : List (Bytes × Shell)}
    (hv : values.length ≤ maxRCompatibleVectorLength)
    (hl : attrs.length ≤ maxRCompatibleAttrCount) (ha : AttrsWritable d attrs)
    (hs : ValuesWritable d values) : (Shell.list values attrs).Writable (d+1) := by
  intro cells hc
  obtain ⟨haw,had⟩ := ha cells hc
  obtain ⟨hsw,hsd⟩ := hs cells hc
  refine ⟨⟨?_,?_,haw,hsw⟩,?_⟩
  · rwa [length_resolveValues]
  · rwa [length_resolveAttrs]
  · have hdepth : ((Shell.list values attrs).resolve cells).depth =
        1+max (attrsDepth (attrsToValues (resolveAttrs cells attrs)))
          (valuesDepth (objectsToValues (resolveValues cells values))) := rfl
    omega

/-! What each function of the reader ensures. -/

theorem getData_exact {len : Nat} (h : len < 2 ^ 64) :
    Limited (getData len) fun bs => bs.length = len :=
  ⟨h,fun _ hr => hr⟩

theorem small_addressable {n : Nat} (h : n ≤ 8) : n < 2 ^ 64 := Nat.lt_of_le_of_lt h (by decide)

theorem readObjectHeader_limited : Limited readObjectHeader fun _ => True :=
  (readObjectHeader_asks (fun _ _ h => small_addressable h)
    fun _ _ h => small_addressable h).meets

theorem readStringHeader_limited : Limited readStringHeader fun _ => True :=
  (readStringHeader_asks (fun _ _ h => small_addressable h)
    fun _ _ h => small_addressable h).meets

theorem getText_exact {len : Nat} (h : len ≤ maxRCompatibleStringLength) :
    Limited (getData len) fun bs => bs.length = len :=
  getData_exact (Nat.lt_of_le_of_lt h (by decide))

theorem checkedSize_within (value limit : Nat) (msg : String) :
    Limited (if value > limit then throwDirectly msg else pure value)
      fun size => size = value ∧ value ≤ limit := by
  split
  · trivial
  · next h => exact ⟨rfl,Nat.not_lt.mp h⟩

theorem readAttributeName_fits :
    Limited readAttributeName fun name => name.length ≤ maxRCompatibleStringLength := by
  refine readStringHeader_limited.bind fun nameLength _ => ?_
  split
  · trivial
  · refine (checkedSize_within _ _ _).bind fun size hsize => ?_
    split
    · exact (getText_exact (hsize.1.trans_le hsize.2)).mono fun name hname => by
        rw [hname,hsize.1]
        exact hsize.2
    · exact Nat.zero_le _

theorem readStringRecord_fits :
    Limited readStringRecord fun r =>
      ∀ s, r = some s → s.length ≤ maxRCompatibleStringLength := by
  refine readStringHeader_limited.bind fun stringLength _ => ?_
  split
  · rintro _ ⟨⟩
  · split
    · rintro _ ⟨⟩
      exact Nat.zero_le _
    · refine (checkedSize_within _ _ _).bind fun size hsize => ?_
      refine (getText_exact (hsize.1.trans_le hsize.2)).bind fun s hs => ?_
      rintro _ ⟨⟩
      rw [hs,hsize.1]
      exact hsize.2

def Resized {α : Type} (P : α → Prop) (r : α × Building) : Prop := P r.1 ∧ CellsFit r.2.cells

section
variable {self : Building → Reader (Shell × Building)} {d : Nat}
  (hself : ∀ st, CellsFit st.cells → Limited (self st) (Resized (Shell.Writable d)))
include hself

theorem readAttributeLoop_writable (n : Nat) (st : Building) (hst : CellsFit st.cells) :
    Limited (readAttributeLoop self n st)
      (Resized fun attrs => attrs.length = n ∧ AttrsWritable d attrs) := by
  induction n generalizing st with
  | zero => exact ⟨⟨rfl,fun _ _ => ⟨trivial,Nat.zero_le _⟩⟩,hst⟩
  | succ n ih =>
    rw [readAttributeLoop_succ]
    refine readAttributeName_fits.bind fun name hname => ?_
    refine (hself st hst).bind fun x hx => (ih x.2 hx.2).bind fun r hr => ?_
    exact ⟨⟨by rw [List.length_cons,hr.1.1],.cons hname hx.1 hr.1.2⟩,hr.2⟩

theorem readAttributes_writable (attrLength : Nat) (st : Building) (hst : CellsFit st.cells) :
    Limited (readAttributes self attrLength st)
      (Resized fun attrs => attrs.length ≤ maxRCompatibleAttrCount ∧ AttrsWritable d attrs) :=
  (checkedSize_within _ _ _).bind fun count hcount =>
    (readAttributeLoop_writable hself count st hst).mono fun r hr =>
      ⟨⟨by rw [hr.1.1,hcount.1]; exact hcount.2,hr.1.2⟩,hr.2⟩

theorem readValues_writable (n : Nat) (st : Building) (hst : CellsFit st.cells) :
    Limited (readValues self n st)
      (Resized fun values => values.length = n ∧ ValuesWritable d values) := by
  induction n generalizing st with
  | zero => exact ⟨⟨rfl,fun _ _ => ⟨trivial,Nat.zero_le _⟩⟩,hst⟩
  | succ n ih =>
    refine (hself st hst).bind fun x hx => ?_
    exact (ih x.2 hx.2).bind fun r hr =>
      ⟨⟨by rw [List.length_cons,hr.1.1],.cons hx.1 hr.1.2⟩,hr.2⟩

theorem readVector_writable (ofSize : Nat → Leaf)
    (hblank : ∀ n, (ofSize n).size = n ∧ (ofSize n).StringsFit) (what : String)
    (objectLength attrLength : Nat) (st : Building) (hst : CellsFit st.cells) :
    Limited (readVector self ofSize what objectLength attrLength st)
      (Resized (Shell.Writable (d+1))) := by
  refine (checkedSize_within _ _ _).bind fun size hsize => ?_
  have hcells : CellsFit (st.allocate (ofSize size)).cells := by
    intro leaf hl
    rcases List.mem_append.mp hl with hl | hl
    · exact hst leaf hl
    · rw [List.mem_singleton.mp hl]
      exact ⟨by rw [(hblank size).1,hsize.1]; exact hsize.2,(hblank size).2⟩
  refine (readAttributes_writable hself attrLength _ hcells).bind fun r hr => ?_
  exact ⟨.vector hr.1.1 hr.1.2,by rw [Building.cells_register]; exact hr.2⟩

end

theorem readInto_writable (budget : Nat) (st : Building) (hst : CellsFit st.cells) :
    Limited (readInto budget st) (Resized (Shell.Writable budget)) := by
  induction budget generalizing st with
  | zero => trivial
  | succ budget ih =>
    refine readObjectHeader_limited.bind fun header _ => ?_
    obtain ⟨type,objectLength,attrLength⟩ := header
    cases type with
    | nil => exact ⟨fun _ _ => ⟨trivial,by simp [Shell.resolve,Object.depth,Object.toValue,
        Value.depth]⟩,hst⟩
    | «attribute» => trivial
    | list =>
      refine (readAttributes_writable ih _ _ hst).bind fun a ha => ?_
      refine (checkedSize_within _ _ _).bind fun size hsize => ?_
      exact (readValues_writable ih size a.2 ha.2).bind fun r hr =>
        ⟨.list (by rw [hr.1.1,hsize.1]; exact hsize.2) ha.1.1 ha.1.2 hr.1.2,hr.2⟩
    | character =>
      refine readVector_writable ih stringOfSize (fun n => ⟨List.length_replicate,?_⟩) _ _ _ _ hst
      intro s hs
      cases List.eq_of_mem_replicate hs
    | logical =>
      exact readVector_writable ih logicalOfSize (fun n => ⟨List.length_replicate,trivial⟩) _ _ _ _
        hst
    | integer =>
      exact readVector_writable ih integerOfSize (fun n => ⟨List.length_replicate,trivial⟩) _ _ _ _
        hst
    | real =>
      exact readVector_writable ih realOfSize (fun n => ⟨List.length_replicate,trivial⟩) _ _ _ _
        hst
    | complex =>
      exact readVector_writable ih complexOfSize (fun n => ⟨List.length_replicate,trivial⟩) _ _ _ _
        hst
    | raw =>
      exact readVector_writable ih rawOfSize (fun n => ⟨List.length_replicate,trivial⟩) _ _ _ _
        hst

theorem stringsFit_cons {r : Option Bytes} {records : List (Option Bytes)}
    (hr : ∀ s, r = some s → s.length ≤ maxRCompatibleStringLength)
    (h : (Leaf.string records).StringsFit) : (Leaf.string (r :: records)).StringsFit := by
  intro s hs
  rcases List.mem_cons.mp hs with hs | hs
  · exact hr s hs.symm
  · exact h s hs

theorem readStringPayloads_fit (n : Nat) :
    Limited (readStringPayloads n) fun records =>
      records.length = n ∧ (Leaf.string records).StringsFit := by
  induction n with
  | zero => exact ⟨rfl,fun s hs => by cases hs⟩
  | succ n ih =>
    rw [readStringPayloads_succ]
    refine readStringRecord_fits.bind fun r hr => ih.bind fun rest hrest => ?_
    exact ⟨by rw [List.length_cons,hrest.1],stringsFit_cons hr hrest.2⟩

theorem readStringGroup_fit (addresses : List Nat) (cells : List Leaf) (h : CellsFit cells) :
    Limited (readStringGroup addresses cells) CellsFit := by
  induction addresses generalizing cells with
  | nil => exact h
  | cons address rest ih =>
    refine (readStringPayloads_fit _).bind fun records hr => ih _ (h.set address ⟨?_,hr.2⟩)
    have hsize : (Leaf.string records).size = (cells.getD address (.raw [])).size := hr.1
    rw [hsize]
    exact (h.getD address).1

theorem Leaf.Fits.fill {leaf : Leaf} (h : leaf.Fits) (bs : Bytes) : (leaf.fill bs).Fits := by
  have hsize : (leaf.fill bs).size = leaf.size := by
    cases leaf <;> simp [Leaf.fill,Leaf.size]
  refine ⟨by rw [hsize]; exact h.1,?_⟩
  cases leaf with
  | string records => exact h.2
  | _ => trivial

theorem Leaf.Fits.byteSize_lt {leaf : Leaf} (h : leaf.Fits) : leaf.byteSize < 2 ^ 64 := by
  have hsize := h.1
  cases leaf <;> simp only [Leaf.size,Leaf.byteSize,maxRCompatibleVectorLength] at * <;> omega

theorem readArrayGroup_fit (addresses : List Nat) (cells : List Leaf) (h : CellsFit cells) :
    Limited (readArrayGroup addresses cells) CellsFit := by
  induction addresses generalizing cells with
  | nil => exact h
  | cons address rest ih =>
    exact (getData_exact (h.getD address).byteSize_lt).bind fun bs _ =>
      ih _ (h.set address ((h.getD address).fill bs))

theorem readObjectData_fit (st : Building) (h : CellsFit st.cells) :
    Limited (readObjectData st) CellsFit := by
  refine (readStringGroup_fit st.stringPayloads _ h).bind fun cells h => ?_
  refine (readArrayGroup_fit st.complexPayloads cells h).bind fun cells h => ?_
  refine (readArrayGroup_fit st.realPayloads cells h).bind fun cells h => ?_
  refine (readArrayGroup_fit st.integerPayloads cells h).bind fun cells h => ?_
  exact readArrayGroup_fit st.rawPayloads cells h

theorem streamRead_limits (d : Nat) :
    Limited (streamRead d) fun o => o.WithinLimits ∧ o.depth ≤ d := by
  unfold streamRead
  split
  · trivial
  · refine (readInto_writable d {} (fun leaf hl => by cases hl)).bind fun r hr => ?_
    exact (readObjectData_fit r.2 hr.2).bind fun cells hc => hr.1 cells hc

/-- Whatever bytes the reader takes for an object, the writer takes the object, and what it
writes reads back as the same object. -/
theorem read_writes_back {d : Nat} {b rest : Bytes} {o : Object}
    (h : (streamRead d).run channel b = .ok (o,rest)) :
    o.WithinLimits ∧ o.depth ≤ d ∧ (streamWrite d o.toValue).error = none ∧
    ∀ tail, (streamRead d).run channel (pushedBytes (streamWrite d o.toValue).pushed ++ tail) =
      .ok (o,tail) := by
  obtain ⟨hl,hd⟩ := run_ensures channel_exact (streamRead_limits d).ensures h
  have hpos : 0 < o.depth := Value.depth_pos _ hl
  have hw : (streamWrite d o.toValue).error = none := streamWrite_error.mpr ⟨by omega,hl,hd⟩
  refine ⟨hl,hd,hw,fun tail => ?_⟩
  rw [streamRead_written hw (by omega) tail,toObject_toValue]
  exact if_pos hd

/-- No attributes, announced all the same, and a list header wider than one nil needs. -/
theorem read_writes_back_wide :
    (streamRead 2).run channel [0xE0,0x01,0x01,0x00,0xAA] = .ok (.list [.nil] [],[0xAA]) ∧
    (Object.list [.nil] []).WithinLimits ∧
    (streamRead 2).run channel
      (pushedBytes (streamWrite 2 (Object.list [.nil] []).toValue).pushed ++ []) =
        .ok (.list [.nil] [],[]) :=
  have hread : (streamRead 2).run channel [0xE0,0x01,0x01,0x00,0xAA] =
      .ok (.list [.nil] [],[0xAA]) := rfl
  have h := read_writes_back hread
  ⟨hread,h.1,h.2.2.2 []⟩

end QData
