import QData.PayloadPass
/-! Writing an object and reading it back over a byte channel: the round trip, when the
writer completes, and that what it leaves behind otherwise is never a whole object. -/
set_option autoImplicit false

namespace QData
open Words Requests

/-- Cells part way through the payload pass: each holds its vector, or is still blank
and among the addresses that remain. -/
structure Filled (leaves cells : List Leaf) (remaining : List Nat) : Prop where
  length : cells.length = leaves.length
  cell : ∀ address leaf, leaves[address]? = some leaf →
    cells[address]? = some leaf ∨ (cells[address]? = some leaf.blank ∧ address ∈ remaining)

theorem Filled.done {leaves cells : List Leaf} (h : Filled leaves cells []) :
    cells = leaves := by
  apply List.ext_getElem?
  intro i
  cases hl : leaves[i]? with
  | none =>
    have hn := List.getElem?_eq_none_iff.mp hl
    exact List.getElem?_eq_none_iff.mpr (by rw [h.length]; exact hn)
  | some leaf =>
    rcases h.cell i leaf hl with hc | ⟨_,hm⟩
    · exact hc
    · cases hm

theorem Filled.set {leaves cells : List Leaf} {address : Nat} {remaining : List Nat}
    (h : Filled leaves cells (address :: remaining)) {leaf : Leaf}
    (hl : leaves[address]? = some leaf) :
    Filled leaves (cells.set address leaf) remaining where
  length := by rw [List.length_set,h.length]
  cell := by
    intro a x hx
    by_cases ha : a = address
    · subst ha
      have hxl : x = leaf := by rw [hx] at hl; exact Option.some.inj hl
      have hlt : a < cells.length := by
        rw [h.length]
        exact (List.getElem?_eq_some_iff.mp hx).1
      exact .inl (by rw [List.getElem?_set_self hlt,hxl])
    · rw [List.getElem?_set_ne (Ne.symm ha)]
      rcases h.cell a x hx with hc | ⟨hc,hm⟩
      · exact .inl hc
      · exact .inr ⟨hc,(List.mem_cons.mp hm).resolve_left ha⟩

theorem Filled.getD {leaves cells : List Leaf} {remaining : List Nat}
    (h : Filled leaves cells remaining) {address : Nat} {leaf : Leaf}
    (hl : leaves[address]? = some leaf) :
    cells.getD address (.raw []) = leaf ∨ cells.getD address (.raw []) = leaf.blank := by
  rcases h.cell address leaf hl with hc | ⟨hc,_⟩
  · exact .inl (by simp [List.getD,hc])
  · exact .inr (by simp [List.getD,hc])

theorem Leaf.blank_of_empty {leaf : Leaf} (h : leaf.size = 0) : leaf.blank = leaf := by
  cases leaf <;> simp_all [Leaf.blank,Leaf.ofSize,Leaf.size,logicalOfSize,integerOfSize,
    realOfSize,complexOfSize,stringOfSize,rawOfSize]

theorem Matches.filled {leaves : List Leaf} {st : Building} {p : Payloads}
    (h : Matches leaves st p []) :
    Filled leaves st.cells (st.stringPayloads ++ (st.complexPayloads ++ (st.realPayloads ++
      (st.integerPayloads ++ st.rawPayloads)))) where
  length := h.length
  cell := by
    intro address leaf hl
    have hc : st.cells[address]? = some leaf.blank := by simp [h.cells,hl]
    by_cases hs : 0 < leaf.size
    · have hq := (h.covered address leaf hl hs).resolve_right (List.not_mem_nil)
      refine .inr ⟨hc,?_⟩
      simp only [List.mem_append]
      cases hg : leaf.group <;> simp only [hg,Building.queue] at hq <;> simp [hq]
    · rw [Leaf.blank_of_empty (by omega)] at hc
      exact .inl hc

theorem readArrayGroup_written {g : Group} (hg : g ≠ .string) {leaves : List Leaf}
    {addresses : List Nat} {ds : List Deferred} (hp : Paired g leaves addresses ds)
    (remaining : List Nat) (cells : List Leaf)
    (hf : Filled leaves cells (addresses ++ remaining)) :
    (flushPayloadGroup ds).error = none ∧ ∃ cells',
      (∀ rest, (readArrayGroup addresses cells).run channel
          (pushedBytes (flushPayloadGroup ds).pushed ++ rest) = .ok (cells',rest)) ∧
        Filled leaves cells' remaining := by
  induction hp generalizing cells with
  | nil => exact ⟨rfl,cells,fun _ => rfl,hf⟩
  | @cons address d addresses ds hd _ ih =>
    obtain ⟨hl,hk⟩ := hd
    have hne : d.leaf.group ≠ .string := by rw [hk]; exact hg
    have he := emitPayload_array hne
    obtain ⟨hok,cells',hr,hf'⟩ := ih (cells.set address d.leaf) (hf.set hl)
    refine ⟨WriteRun.error_append_eq_none.mpr ⟨he.1,hok⟩,cells',fun rest => ?_,hf'⟩
    have hcell := hf.getD hl
    have hsize : (cells.getD address (.raw [])).byteSize = d.leaf.bytes.length := by
      rw [Leaf.length_bytes]
      rcases hcell with hc | hc
      · rw [hc]
      · rw [hc,Leaf.byteSize_blank]
    have hfill : (cells.getD address (.raw [])).fill d.leaf.bytes = d.leaf := by
      rcases hcell with hc | hc
      · rw [hc,Leaf.fill_bytes hne]
      · rw [hc,Leaf.fill_blank _ _ hne,Leaf.fill_bytes hne]
    have hpush : pushedBytes (flushPayloadGroup (d :: ds)).pushed =
        d.leaf.bytes ++ pushedBytes (flushPayloadGroup ds).pushed := by
      rw [flushPayloadGroup,writeEach,pushedBytes_append_ok he.1,he.2.1]
      rfl
    rw [hpush,List.append_assoc,readArrayGroup,run_bind_ok (run_getData hsize _),hfill]
    exact hr rest

theorem string_of_group {leaf : Leaf} (h : leaf.group = .string) :
    ∃ records, leaf = .string records := by
  cases leaf with
  | string records => exact ⟨records,rfl⟩
  | _ => cases h

theorem Filled.getD_size {leaves cells : List Leaf} {remaining : List Nat}
    (h : Filled leaves cells remaining) {address : Nat} {leaf : Leaf}
    (hl : leaves[address]? = some leaf) :
    (cells.getD address (.raw [])).size = leaf.size := by
  rcases h.getD hl with hc | hc
  · rw [hc]
  · rw [hc,Leaf.size_blank]

theorem readStringGroup_written {leaves : List Leaf} {addresses : List Nat}
    {ds : List Deferred} (hp : Paired .string leaves addresses ds)
    (remaining : List Nat) (cells : List Leaf)
    (hf : Filled leaves cells (addresses ++ remaining))
    (hok : (flushPayloadGroup ds).error = none) :
    ∃ cells',
      (∀ rest, (readStringGroup addresses cells).run channel
          (pushedBytes (flushPayloadGroup ds).pushed ++ rest) = .ok (cells',rest)) ∧
        Filled leaves cells' remaining := by
  induction hp generalizing cells with
  | nil => exact ⟨cells,fun _ => rfl,hf⟩
  | @cons address d addresses ds hd _ ih =>
    obtain ⟨hl,hk⟩ := hd
    obtain ⟨records,hrec⟩ := string_of_group hk
    obtain ⟨hemit,htail⟩ := WriteRun.error_append_eq_none.mp hok
    have hbody : emitPayload d = writeEach writeStringValue records := by
      rw [emitPayload,hrec]
    obtain ⟨cells',hr,hf'⟩ := ih (cells.set address d.leaf) (hf.set hl) htail
    refine ⟨cells',fun rest => ?_,hf'⟩
    have hsize : (cells.getD address (.raw [])).size = records.length := by
      rw [hf.getD_size hl,hrec,Leaf.size]
    rw [hbody] at hemit
    rw [flushPayloadGroup,writeEach,hbody,pushedBytes_append_ok hemit,List.append_assoc,
      readStringGroup,hsize,run_bind_ok (readStringPayloads_written records _ hemit),← hrec]
    exact hr rest

theorem readStringGroup_cut {leaves : List Leaf} {addresses : List Nat}
    {ds : List Deferred} (hp : Paired .string leaves addresses ds)
    (remaining : List Nat) (cells : List Leaf)
    (hf : Filled leaves cells (addresses ++ remaining)) {e : String}
    (hcut : (flushPayloadGroup ds).error = some e) :
    Incomplete (readStringGroup addresses cells)
      (pushedBytes (flushPayloadGroup ds).pushed) := by
  induction hp generalizing cells with
  | nil => cases hcut
  | @cons address d addresses ds hd _ ih =>
    obtain ⟨hl,hk⟩ := hd
    obtain ⟨records,hrec⟩ := string_of_group hk
    have hbody : emitPayload d = writeEach writeStringValue records := by
      rw [emitPayload,hrec]
    have hsize : (cells.getD address (.raw [])).size = records.length := by
      rw [hf.getD_size hl,hrec,Leaf.size]
    rw [flushPayloadGroup,writeEach,hbody] at hcut ⊢
    rw [readStringGroup,hsize]
    rcases WriteRun.error_append hcut with ⟨hc,he⟩ | ⟨hemit,htail⟩
    · rw [hc]
      exact Incomplete.bind (readStringPayloads_cut records e he) _
    · rw [pushedBytes_append_ok hemit,Incomplete,
        run_bind_ok (readStringPayloads_written records _ hemit),← hrec]
      exact ih (cells.set address d.leaf) (hf.set hl) htail

theorem flushArrays_error {p : Payloads} {leaves : List Leaf} {st : Building}
    (h : Matches leaves st p []) :
    (flushPayloadGroup p.complex ++ (flushPayloadGroup p.real ++
      (flushPayloadGroup p.integer ++ flushPayloadGroup p.raw))).error = none := by
  have hgroup : ∀ ds : List Deferred, (∀ d ∈ ds, d.leaf.group ≠ .string) →
      (flushPayloadGroup ds).error = none := by
    intro ds
    induction ds with
    | nil => exact fun _ => rfl
    | cons d ds ih =>
      intro hd
      exact WriteRun.error_append_eq_none.mpr
        ⟨(emitPayload_array (hd d List.mem_cons_self)).1,
          ih fun x hx => hd x (List.mem_cons_of_mem _ hx)⟩
  have hkind : ∀ g, ∀ d ∈ p.queue g, d.leaf.group = g := by
    intro g d hd
    have hp := h.paired g
    generalize st.queue g = as at hp
    generalize p.queue g = ds at hp hd
    induction hp with
    | nil => cases hd
    | cons hx _ ih =>
      rcases List.mem_cons.mp hd with rfl | hd
      · exact hx.2
      · exact ih hd
  have hall : ∀ g, g ≠ .string → (flushPayloadGroup (p.queue g)).error = none := fun g hg =>
    hgroup _ fun d hd => by rw [hkind g d hd]; exact hg
  simp only [WriteRun.error_append_eq_none]
  exact ⟨hall .complex (by decide),hall .real (by decide),hall .integer (by decide),
    hall .raw (by decide)⟩

theorem readObjectData_written {leaves : List Leaf} {st : Building} {p : Payloads}
    (h : Matches leaves st p []) (hok : (flushPayloads p).error = none) (rest : Bytes) :
    (readObjectData st).run channel (pushedBytes (flushPayloads p).pushed ++ rest) =
      .ok (leaves,rest) := by
  obtain ⟨hs,hc⟩ := WriteRun.error_append_eq_none.mp hok
  obtain ⟨hcx,hr⟩ := WriteRun.error_append_eq_none.mp hc
  obtain ⟨hre,hi⟩ := WriteRun.error_append_eq_none.mp hr
  obtain ⟨hin,hra⟩ := WriteRun.error_append_eq_none.mp hi
  rw [flushPayloads,pushedBytes_append_ok hs,pushedBytes_append_ok hcx,
    pushedBytes_append_ok hre,pushedBytes_append_ok hin]
  simp only [List.append_assoc]
  rw [readObjectData]
  obtain ⟨cells₁,h₁,f₁⟩ := readStringGroup_written (h.paired .string) _ _ h.filled hs
  obtain ⟨_,cells₂,h₂,f₂⟩ := readArrayGroup_written (by decide) (h.paired .complex) _ _ f₁
  obtain ⟨_,cells₃,h₃,f₃⟩ := readArrayGroup_written (by decide) (h.paired .real) _ _ f₂
  obtain ⟨_,cells₄,h₄,f₄⟩ := readArrayGroup_written (by decide) (h.paired .integer) _ _ f₃
  obtain ⟨_,cells₅,h₅,f₅⟩ := readArrayGroup_written (by decide) (h.paired .raw) []
    cells₄ (by simpa [Building.queue] using f₄)
  simp only [Building.queue,Payloads.queue] at h₁ h₂ h₃ h₄ h₅
  rw [run_bind_ok (h₁ _),run_bind_ok (h₂ _),run_bind_ok (h₃ _),run_bind_ok (h₄ _),h₅,f₅.done]

theorem readObjectData_cut {leaves : List Leaf} {st : Building} {p : Payloads}
    (h : Matches leaves st p []) {e : String} (hcut : (flushPayloads p).error = some e) :
    Incomplete (readObjectData st) (pushedBytes (flushPayloads p).pushed) := by
  rw [readObjectData]
  rcases WriteRun.error_append hcut with ⟨hc,he⟩ | ⟨_,he⟩
  · rw [flushPayloads,hc]
    exact Incomplete.bind (readStringGroup_cut (h.paired .string) _ _ h.filled he) _
  · rw [flushArrays_error h] at he
    cases he

theorem checkedMaxNestingDepth_append {maxDepth : Nat} {r : WriteRun}
    (h : (checkedMaxNestingDepth maxDepth ++ r).error = none) :
    maxDepth ≠ 0 ∧ checkedMaxNestingDepth maxDepth ++ r = r := by
  by_cases hm : maxDepth = 0
  · rw [checkedMaxNestingDepth,if_pos hm,WriteRun.append_failed rfl] at h
    cases h
  · exact ⟨hm,by rw [checkedMaxNestingDepth,if_neg hm,WriteRun.empty_append]⟩

theorem place_start {v : Value} {budget : Nat} (h : (writeObject budget v).error = none) :
    Matches v.leaves (place v {}).2 (writeObject budget v).deferred [] := by
  simpa using place_matches v budget h Matches.start

/-- A completed write reads back as the value's object, and the reader stops exactly
where the writer did, unless its own depth limit is smaller than the value's depth. -/
theorem streamRead_written {v : Value} {maxDepth d : Nat}
    (h : (streamWrite maxDepth v).error = none) (hd : d ≠ 0) (rest : Bytes) :
    (streamRead d).run channel (pushedBytes (streamWrite maxDepth v).pushed ++ rest) =
      if v.depth ≤ d then .ok (v.toObject,rest) else .error depthHalt := by
  rw [streamWrite] at h ⊢
  obtain ⟨_,hb⟩ := checkedMaxNestingDepth_append h
  rw [hb] at h ⊢
  obtain ⟨hobj,hflush⟩ := WriteRun.error_append_eq_none.mp h
  rw [pushedBytes_append_ok hobj,List.append_assoc,streamRead,if_neg hd,readObject,run_bind,
    readInto_written v maxDepth d {} _ hobj]
  by_cases hv : v.depth ≤ d
  · rw [if_pos hv,if_pos hv]
    simp only
    rw [run_bind_ok (readObjectData_written (place_start hobj) hflush rest)]
    have hr := (resolve_place v {} [] [] rfl).1
    simp only [List.nil_append,List.append_nil] at hr
    rw [hr]
    rfl
  · rw [if_neg hv,if_neg hv]

/-- What an aborted write has pushed is never a whole object. -/
theorem streamRead_cut {v : Value} {maxDepth : Nat} {e : String}
    (h : (streamWrite maxDepth v).error = some e) (d : Nat) :
    Incomplete (streamRead d) (pushedBytes (streamWrite maxDepth v).pushed) := by
  rw [streamRead]
  by_cases hd : d = 0
  · rw [if_pos hd]
    exact ⟨_,rfl⟩
  rw [if_neg hd,streamWrite] at *
  rcases WriteRun.error_append h with ⟨hc,_⟩ | ⟨hm,hw⟩
  · rw [hc,checkedMaxNestingDepth]
    refine Incomplete.bind ?_ _
    split <;> exact readInto_empty d {}
  rw [pushedBytes_append_ok hm]
  have hnil : (checkedMaxNestingDepth maxDepth).pushed = [] := by
    rw [checkedMaxNestingDepth]
    split <;> rfl
  rw [hnil,pushedBytes_nil,List.nil_append,readObject]
  rcases WriteRun.error_append hw with ⟨hc,hobj⟩ | ⟨hobj,hflush⟩
  · rw [hc]
    exact Incomplete.bind (readInto_cut v maxDepth d {} e hobj) _
  · rw [pushedBytes_append_ok hobj,Incomplete,run_bind,readInto_written v maxDepth d {} _ hobj]
    by_cases hv : v.depth ≤ d
    · rw [if_pos hv]
      exact Incomplete.bind (readObjectData_cut (place_start hobj) hflush) _
    · rw [if_neg hv]
      exact ⟨_,rfl⟩

/-- A stretch of writing that completes now and whose payloads will complete later. -/
def WriteRun.Sound (r : WriteRun) : Prop :=
  r.error = none ∧ ∀ d ∈ r.deferred.string, d.leaf.StringsFit

theorem WriteRun.sound_append {a b : WriteRun} : (a ++ b).Sound ↔ a.Sound ∧ b.Sound := by
  cases h : a.error with
  | none =>
    have hm : ∀ d, d ∈ (a.deferred.append b.deferred).string ↔
        d ∈ a.deferred.string ∨ d ∈ b.deferred.string := fun d => List.mem_append
    simp only [WriteRun.append_ok h,WriteRun.Sound,h,hm,or_imp,forall_and]
    tauto
  | some e => simp [WriteRun.append_failed h,WriteRun.Sound,h]

theorem Emits.sound {r : WriteRun} {bs : Bytes} (h : Emits r bs) : r.Sound :=
  ⟨h.1,by simp [h.2.2]⟩

theorem enterObjectScope_sound {budget : Nat} :
    (enterObjectScope budget).Sound ↔ budget ≠ 0 := by
  by_cases h : budget = 0 <;> simp [enterObjectScope,h,failWith,WriteRun.Sound]

theorem writeText_sound {s : Bytes} :
    (writeText s).Sound ↔ s.length ≤ maxRCompatibleStringLength := by
  refine ⟨fun h => writeText_error h.1,fun h => ?_⟩
  obtain ⟨_,he,_⟩ := writeText_emits h
  exact he.sound

theorem beginLeafVector_sound {leaf : Leaf} {attrCount : Nat} :
    (beginLeafVector leaf attrCount).Sound ↔
      leaf.size ≤ maxRCompatibleVectorLength ∧ attrCount ≤ maxRCompatibleAttrCount := by
  refine ⟨fun h => beginLeafVector_error h.1,fun h => ?_⟩
  obtain ⟨_,he,_⟩ := beginLeafVector_reads h.1 h.2
  exact he.sound

theorem beginListVector_sound {size attrCount : Nat} :
    (beginListVector size attrCount).Sound ↔
      size ≤ maxRCompatibleVectorLength ∧ attrCount ≤ maxRCompatibleAttrCount := by
  refine ⟨fun h => beginListVector_error h.1,fun h => ?_⟩
  obtain ⟨_,he,_⟩ := beginListVector_reads h.1 h.2
  exact he.sound

theorem deferPayload_sound {access : Access} {leaf : Leaf} :
    (deferPayload ⟨access,leaf⟩).Sound ↔ leaf.StringsFit := by
  cases leaf with
  | string records =>
    by_cases h : 0 < records.length
    · simp [WriteRun.Sound,deferPayload,Leaf.size,h]
    · have hn : records = [] := List.eq_nil_of_length_eq_zero (by omega)
      simp [WriteRun.Sound,deferPayload,Leaf.size,hn,Leaf.StringsFit]
  | _ =>
    simp only [WriteRun.Sound,Leaf.StringsFit,deferPayload,iff_true]
    split <;> simp

mutual
theorem writeObject_sound : (v : Value) → (budget : Nat) →
    ((writeObject budget v).Sound ↔ v.WithinLimits ∧ v.depth ≤ budget)
  | .nil, budget => by
      rw [writeObject,WriteRun.sound_append,enterObjectScope_sound]
      have hp : (pushPod [nilHeader]).Sound := (emits_pushPod _).sound
      simp only [hp,Value.WithinLimits,Value.depth,and_true,true_and]
      omega
  | .vector access leaf attrs, budget => by
      rw [writeObject]
      simp only [WriteRun.sound_append,enterObjectScope_sound,beginLeafVector_sound,
        deferPayload_sound,writeAttributes_sound attrs (budget-1),Value.WithinLimits,
        Value.depth]
      constructor
      · rintro ⟨hb,⟨hs,hc⟩,⟨ha,hd⟩,hf⟩
        exact ⟨⟨hs,hf,hc,ha⟩,by omega⟩
      · rintro ⟨⟨hs,hf,hc,ha⟩,hd⟩
        exact ⟨by omega,⟨hs,hc⟩,⟨ha,by omega⟩,hf⟩
  | .list values attrs, budget => by
      rw [writeObject]
      simp only [WriteRun.sound_append,enterObjectScope_sound,beginListVector_sound,
        writeAttributes_sound attrs (budget-1),writeValues_sound values (budget-1),
        Value.WithinLimits,Value.depth]
      constructor
      · rintro ⟨hb,⟨hs,hc⟩,⟨ha,hda⟩,hv,hdv⟩
        exact ⟨⟨hs,hc,ha,hv⟩,by omega⟩
      · rintro ⟨⟨hs,hc,ha,hv⟩,hd⟩
        exact ⟨by omega,⟨hs,hc⟩,⟨ha,by omega⟩,hv,by omega⟩
  | .writable v, budget => writeObject_sound v budget
  | .uninitialized, budget => by
      simp [writeObject,failWith,WriteRun.Sound,Value.WithinLimits]

theorem writeAttributes_sound : (attrs : List (Bytes × Value)) → (budget : Nat) →
    ((writeAttributes budget attrs).Sound ↔
      AttrsWithinLimits attrs ∧ attrsDepth attrs ≤ budget)
  | [], _ => by simp [writeAttributes,WriteRun.Sound,AttrsWithinLimits,attrsDepth]
  | (name,v) :: rest, budget => by
      rw [writeAttributes]
      simp only [WriteRun.sound_append,writeAttributeName,writeText_sound,
        writeObject_sound v budget,writeAttributes_sound rest budget,AttrsWithinLimits,
        attrsDepth]
      constructor
      · rintro ⟨hn,⟨hv,hd⟩,hr,hdr⟩
        exact ⟨⟨hn,hv,hr⟩,by omega⟩
      · rintro ⟨⟨hn,hv,hr⟩,hd⟩
        exact ⟨hn,⟨hv,by omega⟩,hr,by omega⟩

theorem writeValues_sound : (values : List Value) → (budget : Nat) →
    ((writeValues budget values).Sound ↔
      ValuesWithinLimits values ∧ valuesDepth values ≤ budget)
  | [], _ => by simp [writeValues,WriteRun.Sound,ValuesWithinLimits,valuesDepth]
  | v :: rest, budget => by
      rw [writeValues]
      simp only [WriteRun.sound_append,writeObject_sound v budget,writeValues_sound rest budget,
        ValuesWithinLimits,valuesDepth]
      constructor
      · rintro ⟨⟨hv,hd⟩,hr,hdr⟩
        exact ⟨⟨hv,hr⟩,by omega⟩
      · rintro ⟨⟨hv,hr⟩,hd⟩
        exact ⟨⟨hv,by omega⟩,hr,by omega⟩
end

theorem writeEach_error {α : Type} {write : α → WriteRun} {xs : List α} :
    (writeEach write xs).error = none ↔ ∀ x ∈ xs, (write x).error = none := by
  induction xs with
  | nil => simp [writeEach]
  | cons x xs ih => simp [writeEach,WriteRun.error_append_eq_none,ih]

theorem emitPayload_error (d : Deferred) :
    (emitPayload d).error = none ↔ d.leaf.StringsFit := by
  obtain ⟨access,leaf⟩ := d
  cases leaf with
  | string records =>
    simp only [emitPayload,writeEach_error,Leaf.StringsFit]
    constructor
    · exact fun h s hs => writeText_error (h (some s) hs)
    · intro h r hr
      cases r with
      | none => rfl
      | some s =>
        obtain ⟨_,he,_⟩ := writeText_emits (h s hr)
        exact he.1
  | _ => simp [(emitArray_emits _ _ _).1,emitPayload,Leaf.StringsFit]

/-- `checked_*` limits, depth guard and wrappers: a write completes exactly for a value
within all of them. -/
theorem streamWrite_error {maxDepth : Nat} {v : Value} :
    (streamWrite maxDepth v).error = none ↔
      maxDepth ≠ 0 ∧ v.WithinLimits ∧ v.depth ≤ maxDepth := by
  rw [← writeObject_sound v maxDepth,streamWrite,WriteRun.error_append_eq_none,
    WriteRun.error_append_eq_none,WriteRun.Sound]
  have hdepth : (checkedMaxNestingDepth maxDepth).error = none ↔ maxDepth ≠ 0 := by
    by_cases h : maxDepth = 0 <;> simp [checkedMaxNestingDepth,h,failWith]
  rw [hdepth]
  refine and_congr_right fun _ => and_congr_right fun hobj => ?_
  have harrays := flushArrays_error (place_start hobj)
  rw [flushPayloads,WriteRun.error_append_eq_none,and_iff_left harrays,flushPayloadGroup,
    writeEach_error]
  simp only [emitPayload_error]

theorem Value.depth_pos : (v : Value) → v.WithinLimits → 0 < v.depth
  | .nil, _ => Nat.one_pos
  | .vector _ _ _, _ => by rw [Value.depth]; omega
  | .list _ _, _ => by rw [Value.depth]; omega
  | .writable v, h => v.depth_pos h

/-- The object codec over a byte channel: an object within the writer's limits is written
without an exception and reads back as itself, leaving exactly what follows it. -/
theorem object_roundtrip {x : Object} {maxDepth : Nat} (hl : x.WithinLimits)
    (hd : x.depth ≤ maxDepth) (rest : Bytes) :
    (streamWrite maxDepth x.toValue).error = none ∧
      (streamRead maxDepth).run channel
          (pushedBytes (streamWrite maxDepth x.toValue).pushed ++ rest) = .ok (x,rest) := by
  have hpos : 0 < x.depth := Value.depth_pos _ hl
  have hw : (streamWrite maxDepth x.toValue).error = none :=
    streamWrite_error.mpr ⟨by omega,hl,hd⟩
  refine ⟨hw,?_⟩
  rw [streamRead_written hw (by omega) rest,toObject_toValue]
  exact if_pos hd

/-- A named list with an NA string, an empty string and two integers. -/
theorem object_roundtrip_list :
    (streamWrite 2 (Object.toValue (.list [.vector (.string [none,some []]) [],
        .vector (.integer [1,-1]) []] [([0x61],.nil)]))).error = none ∧
      (streamRead 2).run channel
          (pushedBytes (streamWrite 2 (Object.toValue (.list [.vector (.string [none,some []]) [],
            .vector (.integer [1,-1]) []] [([0x61],.nil)]))).pushed ++ [0xFF]) =
        .ok (.list [.vector (.string [none,some []]) [],.vector (.integer [1,-1]) []]
          [([0x61],.nil)],[0xFF]) :=
  object_roundtrip (by
    simp [Object.WithinLimits,Object.toValue,objectsToValues,attrsToValues,Value.WithinLimits,
      ValuesWithinLimits,AttrsWithinLimits,Leaf.StringsFit,Leaf.size,
      maxRCompatibleVectorLength,maxRCompatibleAttrCount,maxRCompatibleStringLength])
    (by decide) [0xFF]

end QData
