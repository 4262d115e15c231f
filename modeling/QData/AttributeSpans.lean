import QData.StringRecords
import QData.Lib.Spans
/-! Where the attributes of each object lie in the bytes that the reader accepts. -/
set_option autoImplicit false

namespace QData
open Words Requests

/-- One call of `read_into`: the bytes of its header, what they announce, then the name
records and calls for the attributes, and the calls for the elements. -/
inductive Trace where
  | node (header : Bytes) (type : Qstype) (attrLength : Nat) (attrs : List (Bytes × Trace))
      (values : List Trace) : Trace

def Trace.header : Trace → Bytes
  | .node header _ _ _ _ => header

def Trace.type : Trace → Qstype
  | .node _ type _ _ _ => type

def Trace.attrLength : Trace → Nat
  | .node _ _ attrLength _ _ => attrLength

def Trace.attrs : Trace → List (Bytes × Trace)
  | .node _ _ _ attrs _ => attrs

mutual
def Trace.bytes : Trace → Bytes
  | .node header _ _ attrs values => header ++ attrsTraced attrs ++ valuesTraced values

def attrsTraced : List (Bytes × Trace) → Bytes
  | [] => []
  | (name,t) :: rest => name ++ t.bytes ++ attrsTraced rest

def valuesTraced : List Trace → Bytes
  | [] => []
  | t :: rest => t.bytes ++ valuesTraced rest
end

mutual
def Trace.calls : Trace → List Trace
  | .node header type attrLength attrs values =>
      .node header type attrLength attrs values :: (attrsCalls attrs ++ valuesCalls values)

def attrsCalls : List (Bytes × Trace) → List Trace
  | [] => []
  | (_,t) :: rest => t.calls ++ attrsCalls rest

def valuesCalls : List Trace → List Trace
  | [] => []
  | t :: rest => t.calls ++ valuesCalls rest
end

/-! `read_into` once more, keeping the calls in place of the objects. -/

def traceAttributeLoop (self : Reader Trace) : Nat → Reader (List (Bytes × Trace))
  | 0 => pure []
  | n+1 => do
      let (_,name) ← readAttributeName.logged
      let t ← self
      let rest ← traceAttributeLoop self n
      pure ((name.flatten,t) :: rest)

def traceAttributes (self : Reader Trace) (attrLength : Nat) : Reader (List (Bytes × Trace)) := do
  let count ← checkedRCompatibleAttrCount attrLength
  traceAttributeLoop self count

def traceValues (self : Reader Trace) : Nat → Reader (List Trace)
  | 0 => pure []
  | n+1 => do
      let t ← self
      let rest ← traceValues self n
      pure (t :: rest)

def traceVector (self : Reader Trace) (header : Bytes) (type : Qstype) (what : String)
    (objectLength attrLength : Nat) : Reader Trace := do
  let _ ← checkedRCompatibleVectorSize objectLength what
  let attrs ← traceAttributes self attrLength
  pure (.node header type attrLength attrs [])

def traceInto : Nat → Reader Trace
  | 0 => cleanupAndThrow "qdata nesting depth exceeds configured max_depth"
  | budget+1 => do
      let ((type,objectLength,attrLength),header) ← readObjectHeader.logged
      match type with
      | .nil => pure (.node header.flatten .nil attrLength [] [])
      | .logical =>
          traceVector (traceInto budget) header.flatten .logical "logical vector length"
            objectLength attrLength
      | .integer =>
          traceVector (traceInto budget) header.flatten .integer "integer vector length"
            objectLength attrLength
      | .real =>
          traceVector (traceInto budget) header.flatten .real "real vector length"
            objectLength attrLength
      | .complex =>
          traceVector (traceInto budget) header.flatten .complex "complex vector length"
            objectLength attrLength
      | .character =>
          traceVector (traceInto budget) header.flatten .character "string vector length"
            objectLength attrLength
      | .list => do
          let attrs ← traceAttributes (traceInto budget) attrLength
          let size ← checkedRCompatibleVectorSize objectLength "list length"
          let values ← traceValues (traceInto budget) size
          pure (.node header.flatten .list attrLength attrs values)
      | .raw =>
          traceVector (traceInto budget) header.flatten .raw "raw vector length"
            objectLength attrLength
      | .attribute => cleanupAndThrow "Unsupported qdata object type"

/-! The trace is taken of `read_into` itself: both make the same requests. -/

def Any {α β : Type} (_ : α) (_ : β) : Prop := True

section
variable {self : Building → Reader (Shell × Building)} {traced : Reader Trace}
  (hself : ∀ st, traced.Alike Any (self st))
include hself

theorem traceAttributeLoop_alike (n : Nat) (st : Building) :
    (traceAttributeLoop traced n).Alike Any (readAttributeLoop self n st) := by
  induction n generalizing st with
  | zero => trivial
  | succ n ih =>
    rw [readAttributeLoop_succ,traceAttributeLoop]
    exact readAttributeName.logged_alike.bind fun _ _ _ => (hself st).bind fun _ x _ =>
      (ih x.2).bind fun _ _ _ => trivial

theorem traceAttributes_alike (attrLength : Nat) (st : Building) :
    (traceAttributes traced attrLength).Alike Any (readAttributes self attrLength st) := by
  refine (Prog.Alike.refl _).bind fun count _ h => ?_
  subst h
  exact traceAttributeLoop_alike hself count st

theorem traceValues_alike (n : Nat) (st : Building) :
    (traceValues traced n).Alike Any (readValues self n st) := by
  induction n generalizing st with
  | zero => trivial
  | succ n ih => exact (hself st).bind fun _ x _ => (ih x.2).bind fun _ _ _ => trivial

theorem traceVector_alike (header : Bytes) (type : Qstype) (ofSize : Nat → Leaf) (what : String)
    (objectLength attrLength : Nat) (st : Building) :
    (traceVector traced header type what objectLength attrLength).Alike Any
      (readVector self ofSize what objectLength attrLength st) := by
  refine (Prog.Alike.refl _).bind fun _ size _ => ?_
  exact (traceAttributes_alike hself attrLength _).bind fun _ _ _ => trivial

end

theorem traceInto_alike (budget : Nat) (st : Building) :
    (traceInto budget).Alike Any (readInto budget st) := by
  induction budget generalizing st with
  | zero => exact rfl
  | succ budget ih =>
    refine readObjectHeader.logged_alike.bind fun x y h => ?_
    obtain ⟨⟨type,objectLength,attrLength⟩,header⟩ := x
    subst h
    cases type with
    | nil => trivial
    | «attribute» => exact rfl
    | list =>
      refine (traceAttributes_alike ih attrLength st).bind fun _ a _ => ?_
      refine (Prog.Alike.refl _).bind fun size _ h => ?_
      subst h
      exact (traceValues_alike ih size a.2).bind fun _ _ _ => trivial
    | _ => exact traceVector_alike ih _ _ _ _ _ _ st

/-! What each part of the trace takes from the channel. -/

theorem channel_again (op : GetOp) (s bs s' : Bytes) (h : channel op s = .ok (bs,s')) :
    s = bs ++ s' ∧ ∀ more, channel op (bs ++ more) = .ok (bs,more) := by
  obtain ⟨hl,hs⟩ := channel_eq_ok.mp h
  exact ⟨hs,fun more => channel_eq_ok.mpr ⟨hl,rfl⟩⟩

def SpellsName (bs : Bytes) : Prop :=
  ∃ name, ∀ more, readAttributeName.run channel (bs ++ more) = .ok (name,more)

structure Trace.Spelled (t : Trace) : Prop where
  header : ∃ objectLength, ∀ more, readObjectHeader.run channel (t.header ++ more) =
    .ok ((t.type,objectLength,t.attrLength),more)
  names : ∀ a ∈ t.attrs, SpellsName a.1
  count : t.attrs.length = if t.type = .nil then 0 else t.attrLength

def AttrsSpelled (before : Bytes) (attrs : List (Bytes × Trace)) (taken : Bytes) : Prop :=
  taken = before ++ attrsTraced attrs ∧ (∀ a ∈ attrs, SpellsName a.1) ∧
    ∀ t ∈ attrsCalls attrs, t.Spelled

def CallSpelled (before : Bytes) (t : Trace) (taken : Bytes) : Prop :=
  taken = before ++ t.bytes ∧ ∀ n ∈ t.calls, n.Spelled

def ValuesSpelled (before : Bytes) (values : List Trace) (taken : Bytes) : Prop :=
  taken = before ++ valuesTraced values ∧ ∀ t ∈ valuesCalls values, t.Spelled

theorem checkedSize_spans (value limit : Nat) (msg : String) (before : Bytes) :
    (if value > limit then throwDirectly msg else pure value : Reader Nat).Spans channel before
      fun size taken => size = value ∧ taken = before := by
  split
  · exact .fail _
  · exact .pure ⟨rfl,rfl⟩

section
variable {self : Reader Trace} (hself : ∀ before, self.Spans channel before (CallSpelled before))
include hself

theorem traceAttributeLoop_spans (n : Nat) (before : Bytes) :
    (traceAttributeLoop self n).Spans channel before fun attrs taken =>
      attrs.length = n ∧ AttrsSpelled before attrs taken := by
  induction n generalizing before with
  | zero => exact .pure ⟨rfl,by simp [attrsTraced],by simp,by simp [attrsCalls]⟩
  | succ n ih =>
    refine (Prog.Spans.logged channel_again readAttributeName before).bind fun x _ hname => ?_
    obtain ⟨name,log⟩ := x
    obtain ⟨rfl,hagain⟩ := hname
    refine (hself _).bind fun t _ ht => ?_
    obtain ⟨rfl,hcalls⟩ := ht
    refine (ih _).bind fun rest _ hrest => ?_
    obtain ⟨hl,rfl,hnames,hspelled⟩ := hrest
    refine .pure ⟨by rw [List.length_cons,hl],by simp [attrsTraced],?_,?_⟩
    · intro a ha
      rcases List.mem_cons.mp ha with rfl | ha
      · exact ⟨name,hagain⟩
      · exact hnames a ha
    · intro m hm
      rcases List.mem_append.mp hm with hm | hm
      · exact hcalls m hm
      · exact hspelled m hm

theorem traceAttributes_spans (attrLength : Nat) (before : Bytes) :
    (traceAttributes self attrLength).Spans channel before fun attrs taken =>
      attrs.length = attrLength ∧ AttrsSpelled before attrs taken := by
  refine (checkedSize_spans _ _ _ before).bind fun count _ h => ?_
  obtain ⟨rfl,rfl⟩ := h
  exact traceAttributeLoop_spans hself _ _

theorem traceValues_spans (n : Nat) (before : Bytes) :
    (traceValues self n).Spans channel before (ValuesSpelled before) := by
  induction n generalizing before with
  | zero => exact .pure ⟨by simp [valuesTraced],by simp [valuesCalls]⟩
  | succ n ih =>
    refine (hself before).bind fun t _ ht => ?_
    obtain ⟨rfl,hcalls⟩ := ht
    refine (ih _).bind fun rest _ hrest => ?_
    obtain ⟨rfl,hspelled⟩ := hrest
    refine .pure ⟨by simp [valuesTraced],fun m hm => ?_⟩
    rcases List.mem_append.mp hm with hm | hm
    · exact hcalls m hm
    · exact hspelled m hm

end

theorem CallSpelled.node {before header : Bytes} {type : Qstype} {objectLength attrLength : Nat}
    (hheader : ∀ more, readObjectHeader.run channel (header ++ more) =
      .ok ((type,objectLength,attrLength),more))
    {attrs : List (Bytes × Trace)} {values : List Trace}
    {taken taken' : Bytes} (hcount : attrs.length = if type = .nil then 0 else attrLength)
    (ha : AttrsSpelled (before ++ header) attrs taken) (hv : ValuesSpelled taken values taken') :
    CallSpelled before (.node header type attrLength attrs values) taken' := by
  obtain ⟨rfl,hnames,hattrs⟩ := ha
  obtain ⟨rfl,hvalues⟩ := hv
  refine ⟨by simp [Trace.bytes],fun m hm => ?_⟩
  rcases List.mem_cons.mp hm with rfl | hm
  · exact ⟨⟨objectLength,hheader⟩,hnames,hcount⟩
  · rcases List.mem_append.mp hm with hm | hm
    · exact hattrs m hm
    · exact hvalues m hm

theorem ValuesSpelled.nil (before : Bytes) : ValuesSpelled before [] before :=
  ⟨by simp [valuesTraced],by simp [valuesCalls]⟩

theorem traceInto_spans (budget : Nat) (before : Bytes) :
    (traceInto budget).Spans channel before (CallSpelled before) := by
  induction budget generalizing before with
  | zero => exact .fail _
  | succ budget ih =>
    refine (Prog.Spans.logged channel_again readObjectHeader before).bind fun x _ h => ?_
    obtain ⟨⟨type,objectLength,attrLength⟩,header⟩ := x
    obtain ⟨rfl,hheader⟩ := h
    have hvector : ∀ t what, type = t → t ≠ .nil →
        (traceVector (traceInto budget) header.flatten t what objectLength attrLength).Spans channel
          (before ++ header.flatten) (CallSpelled before) := by
      rintro t what rfl hnil
      refine (checkedSize_spans _ _ _ _).bind fun size _ h => ?_
      obtain ⟨_,rfl⟩ := h
      refine (traceAttributes_spans ih attrLength _).bind fun attrs _ ha => ?_
      exact .pure (.node hheader (by rw [if_neg hnil,ha.1]) ha.2 (.nil _))
    cases type with
    | nil =>
      exact .pure (.node hheader rfl ⟨by simp [attrsTraced],by simp,by simp [attrsCalls]⟩ (.nil _))
    | «attribute» => exact .fail _
    | list =>
      refine (traceAttributes_spans ih attrLength _).bind fun attrs _ ha => ?_
      refine (checkedSize_spans _ _ _ _).bind fun size _ h => ?_
      obtain ⟨_,rfl⟩ := h
      refine (traceValues_spans ih size _).bind fun values _ hv => ?_
      exact .pure (.node hheader (by rw [if_neg (by decide),ha.1]) ha.2 hv)
    | _ => exact hvector _ _ rfl (by decide)

/-- Every call took the pairs its header announces, before anything else was read. -/
def Trace.Synchronised (t : Trace) : Prop := ∀ n ∈ t.calls, n.attrs.length = n.attrLength

/-- What is accepted is one call after the other and then the payloads, and the reader stays in
step with it exactly when no nil header stands behind a count of attributes. -/
theorem attributes_consumed_iff {d : Nat} {b rest : Bytes} {o : Object}
    (h : (streamRead d).run channel b = .ok (o,rest)) :
    ∃ t payload, (traceInto d).run channel b = .ok (t,payload) ∧ b = t.bytes ++ payload ∧
      (∃ shell st cells, (readObject d).run channel b = .ok ((shell,st),payload) ∧
        (readObjectData st).run channel payload = .ok (cells,rest) ∧ o = shell.resolve cells) ∧
      (∀ n ∈ t.calls, n.Spelled) ∧
      (t.Synchronised ↔ ∀ n ∈ t.calls, n.type = .nil → n.attrLength = 0) := by
  unfold streamRead at h
  split at h
  · cases h
  obtain ⟨⟨shell,st⟩,payload,hobject,hdata⟩ := run_bind_eq_ok.mp h
  obtain ⟨cells,_,hcells,hret⟩ := run_bind_eq_ok.mp hdata
  cases hret
  obtain ⟨t,htrace,_⟩ := run_alike (traceInto_alike d {}) hobject
  obtain ⟨taken,hb,htaken,hspelled⟩ := traceInto_spans d [] b t payload htrace
  simp only [List.nil_append] at htaken
  subst htaken
  refine ⟨t,payload,htrace,hb,⟨shell,st,cells,hobject,hcells,rfl⟩,hspelled,?_⟩
  constructor
  · intro hsync n hn hnil
    rw [← hsync n hn,(hspelled n hn).count,if_pos hnil]
  · intro hnil n hn
    rw [(hspelled n hn).count]
    split
    · next ht => exact (hnil n hn ht).symm
    · rfl

/-- An empty list with one attribute, named and nil. -/
theorem attributes_consumed_list :
    ∃ t payload, (traceInto 2).run channel [0xE1,0x20,0x01,0x61,0x00] = .ok (t,payload) ∧
      [0xE1,0x20,0x01,0x61,0x00] = t.bytes ++ payload ∧
      (t.Synchronised ↔ ∀ n ∈ t.calls, n.type = .nil → n.attrLength = 0) := by
  have hread : (streamRead 2).run channel [0xE1,0x20,0x01,0x61,0x00] =
      .ok (.list [] [([0x61],.nil)],[]) := rfl
  obtain ⟨t,payload,htrace,hb,_,_,hsync⟩ := attributes_consumed_iff hread
  exact ⟨t,payload,htrace,hb,hsync⟩

/-- The first element of this list announces one attribute; the name record of that attribute
is taken for the second element. -/
theorem attributes_skipped_nil :
    (streamRead 2).run channel [0x22,0xE1,0x00,0x00,0x00,0x00] =
      .ok (.list [.nil,.nil] [],[0x00,0x00]) ∧
    ∃ t, (traceInto 2).run channel [0x22,0xE1,0x00,0x00,0x00,0x00] = .ok (t,[0x00,0x00]) ∧
      ¬ t.Synchronised := by
  refine ⟨rfl,.node [0x22] .list 0 [] [.node [0xE1,0x00] .nil 1 [] [],.node [0x00] .nil 0 [] []],
    rfl,fun h => ?_⟩
  have hnode := h (.node [0xE1,0x00] .nil 1 [] []) (by simp [Trace.calls,attrsCalls,valuesCalls])
  cases hnode

end QData
