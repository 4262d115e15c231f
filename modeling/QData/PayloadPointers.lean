import QData.ObjectGraph
import Mathlib.Data.List.Forall2
/-! The payloads the writer puts off are pointers. What is written from memory is what is
written for the tree behind the root exactly where all of them outlast the header pass. -/
set_option autoImplicit false

namespace QData
open Words

mutual
/-- What is at an address is this value, when every reference is followed. -/
def Unrolls : Value → Heap → Addr → Prop
  | .nil, m, a => m a = some .nil
  | .vector access leaf attrs, m, a =>
      ∃ given, m a = some (.vector access leaf given) ∧ AttrsUnroll attrs m given
  | .list values attrs, m, a => ∃ elements given,
      m a = some (.list elements given) ∧ AttrsUnroll attrs m given ∧ ValuesUnroll values m elements
  | .writable v, m, a => ∃ p, m a = some (.writable p) ∧ Unrolls v m p
  | .uninitialized, m, a => m a = some .uninitialized

def AttrsUnroll : List (Bytes × Value) → Heap → List (Bytes × Given) → Prop
  | [], _, given => given = []
  | (name,v) :: rest, m, given => ∃ x more, given = (name,x) :: more ∧
      Unrolls v (m.during x) x.addr ∧ AttrsUnroll rest m more

def ValuesUnroll : List Value → Heap → List Given → Prop
  | [], _, given => given = []
  | v :: rest, m, given => ∃ x more, given = x :: more ∧
      Unrolls v (m.during x) x.addr ∧ ValuesUnroll rest m more
end

theorem AttrsUnroll.length : {attrs : List (Bytes × Value)} → {m : Heap} →
    {given : List (Bytes × Given)} → AttrsUnroll attrs m given → given.length = attrs.length
  | [], _, _, h => by
      rw [AttrsUnroll] at h
      rw [h,List.length_nil,List.length_nil]
  | (_,_) :: rest, _, _, h => by
      rw [AttrsUnroll] at h
      obtain ⟨x,more,rfl,-,hrest⟩ := h
      rw [List.length_cons,List.length_cons,hrest.length]

theorem ValuesUnroll.length : {values : List Value} → {m : Heap} → {given : List Given} →
    ValuesUnroll values m given → given.length = values.length
  | [], _, _, h => by
      rw [ValuesUnroll] at h
      rw [h,List.length_nil,List.length_nil]
  | _ :: rest, _, _, h => by
      rw [ValuesUnroll] at h
      obtain ⟨x,more,rfl,-,hrest⟩ := h
      rw [List.length_cons,List.length_cons,hrest.length]

theorem writeObjectAt_unrolls (frames : Nat) {m : Heap} {a : Addr} {budget : Nat}
    (h : (writeObjectAt frames m budget a).ending = none) : ∃ v, Unrolls v m a := by
  induction frames generalizing m a budget with
  | zero => cases h
  | succ frames ih =>
    have attributes : ∀ attrs : List (Bytes × Given),
        (writeAttributesAt (writeObjectAt frames) m (budget-1) attrs).ending = none →
          ∃ vs, AttrsUnroll vs m attrs := by
      intro attrs hattrs
      induction attrs with
      | nil => exact ⟨[],rfl⟩
      | cons x rest ihr =>
        rw [writeAttributesAt,PointerRun.ending_append_eq_none,
          PointerRun.ending_append_eq_none] at hattrs
        obtain ⟨v,hv⟩ := ih hattrs.2.1
        obtain ⟨vs,hvs⟩ := ihr hattrs.2.2
        exact ⟨(x.1,v) :: vs,x.2,rest,rfl,hv,hvs⟩
    have elements : ∀ values : List Given,
        (writeValuesAt (writeObjectAt frames) m (budget-1) values).ending = none →
          ∃ vs, ValuesUnroll vs m values := by
      intro values hvalues
      induction values with
      | nil => exact ⟨[],rfl⟩
      | cons x rest ihr =>
        rw [writeValuesAt,PointerRun.ending_append_eq_none] at hvalues
        obtain ⟨v,hv⟩ := ih hvalues.1
        obtain ⟨vs,hvs⟩ := ihr hvalues.2
        exact ⟨v :: vs,x,rest,rfl,hv,hvs⟩
    cases hc : m a with
    | none =>
      rw [writeObjectAt,hc] at h
      cases h
    | some cell =>
      cases cell with
      | nil => exact ⟨.nil,hc⟩
      | uninitialized => exact ⟨.uninitialized,hc⟩
      | writable p =>
        rw [writeObjectAt_writable hc] at h
        obtain ⟨v,hv⟩ := ih h
        exact ⟨.writable v,p,hc,hv⟩
      | vector access leaf attrs =>
        rw [writeObjectAt_vector hc] at h
        simp only [PointerRun.ending_append_eq_none] at h
        obtain ⟨vs,hvs⟩ := attributes attrs h.2.2.1
        exact ⟨.vector access leaf vs,attrs,hc,hvs⟩
      | list values attrs =>
        rw [writeObjectAt_list hc] at h
        simp only [PointerRun.ending_append_eq_none] at h
        obtain ⟨vs,hvs⟩ := attributes attrs h.2.2.1
        obtain ⟨us,hus⟩ := elements values h.2.2.2
        exact ⟨.list us vs,values,attrs,hc,hvs,hus⟩

def Heap.Keeps (m₀ m : Heap) : Prop := ∀ n, m (.lasting n) = m₀ (.lasting n)

theorem Heap.Keeps.during {m₀ m : Heap} (h : m₀.Keeps m) (x : Given) :
    m₀.Keeps (m.during x) := by
  cases x with
  | reference a => exact h
  | temporary objects n => exact h

/-- A pointer that was put off for a payload. If it lasts, the payload is still behind it. -/
structure Points (m₀ : Heap) (p : DeferredPayload) (d : Deferred) : Prop where
  access : p.access = d.access
  type : p.type = d.leaf.type
  behind : p.objectPtr.Lasting → ∃ attrs, m₀ p.objectPtr = some (.vector d.access d.leaf attrs)

/-- The pointer-level run did what the run on the tree did. -/
structure PointerRun.Shows (m₀ : Heap) (r : PointerRun) (w : WriteRun) : Prop where
  pushed : r.pushed = w.pushed
  ending : r.ending = w.error.map .threw
  deferred : ∀ g, List.Forall₂ (Points m₀) (r.deferred.queue g) (w.deferred.queue g)

section
variable {m₀ : Heap}

theorem PointerRun.Shows.append {r s : PointerRun} {w u : WriteRun} (h : r.Shows m₀ w)
    (k : s.Shows m₀ u) : (r ++ s).Shows m₀ (w ++ u) := by
  cases he : w.error with
  | some msg =>
    have hr : r.ending = some (.threw msg) := by rw [h.ending,he,Option.map_some]
    rw [PointerRun.append_ended hr,WriteRun.append_failed he]
    exact h
  | none =>
    have hr : r.ending = none := by rw [h.ending,he,Option.map_none]
    rw [PointerRun.append_ok hr,WriteRun.append_ok he]
    refine ⟨by rw [h.pushed,k.pushed],k.ending,fun g => ?_⟩
    rw [PayloadQueues.queue_append,Payloads.queue_append]
    exact List.rel_append (h.deferred g) (k.deferred g)

theorem WriteRun.bare_shows {w : WriteRun} (h : w.deferred = {}) : w.bare.Shows m₀ w := by
  refine ⟨rfl,rfl,fun g => ?_⟩
  rw [h,Payloads.queue_empty,WriteRun.bare,PayloadQueues.queue_empty]
  exact .nil

theorem enterObjectScope_deferred (budget : Nat) : (enterObjectScope budget).deferred = {} := by
  unfold enterObjectScope
  split <;> rfl

variable (m₀) in
theorem enterObjectScope_shows (budget : Nat) :
    (enterObjectScope budget).bare.Shows m₀ (enterObjectScope budget) :=
  WriteRun.bare_shows (enterObjectScope_deferred budget)

theorem deferPayloadAt_queue (a : Addr) (access : Access) (leaf : Leaf) (g : Group) :
    (deferPayloadAt a access leaf).deferred.queue g =
      if 0 < leaf.size ∧ leaf.group = g then [⟨a,access,leaf.type⟩] else [] := by
  by_cases h : 0 < leaf.size
  · cases leaf <;> cases g <;> simp_all [deferPayloadAt,PayloadQueues.queue,Leaf.group]
  · simp [deferPayloadAt,h]

theorem deferPayloadAt_pushed (a : Addr) (access : Access) (leaf : Leaf) :
    (deferPayloadAt a access leaf).pushed = [] := by
  unfold deferPayloadAt
  split
  · cases leaf <;> rfl
  · rfl

theorem deferPayloadAt_shows {m : Heap} {a : Addr} {access : Access} {leaf : Leaf}
    {attrs : List (Bytes × Given)} (hm : m₀.Keeps m)
    (cell : m a = some (.vector access leaf attrs)) :
    (deferPayloadAt a access leaf).Shows m₀ (deferPayload ⟨access,leaf⟩) := by
  refine ⟨?_,?_,fun g => ?_⟩
  · rw [deferPayloadAt_pushed,deferPayload_pushed]
  · rw [deferPayloadAt_ending,deferPayload_error,Option.map_none]
  · rw [deferPayloadAt_queue,deferPayload_queue]
    split
    · refine .cons ⟨rfl,rfl,fun hl => ?_⟩ .nil
      cases a with
      | lasting n => exact ⟨attrs,by rw [← hm n]; exact cell⟩
      | passing n => exact hl.elim
    · exact .nil

/-- What the tree of a value needs of the calls of `write_object`: room for those inside
one another, which a memory that can be walked always leaves. -/
structure Roomy (w : Nat) (m : Heap) (a : Addr) (budget frames : Nat) : Prop where
  walkable : Walkable w (m,a)
  room : ∃ k, Wraps m k a ∧ budget*(w+1)+k < frames

theorem Roomy.child {w : Nat} {m m' : Heap} {a a' : Addr} {budget frames : Nat}
    (h : Roomy w m a (budget+1) (frames+1)) (ht : Leads (m,a) (m',a')) :
    Roomy w m' a' budget frames := by
  obtain ⟨k,-,hf⟩ := h.room
  have hs := h.walkable.leads ht
  exact ⟨hs,w,hs.chains _ .refl,frames_inside hf⟩

mutual
/-- The header pass over memory defers a pointer for each payload that the pass over the
tree defers, in the same order, and does nothing else differently. -/
theorem writeObjectAt_shows {w : Nat} : (v : Value) → (frames budget : Nat) → {m : Heap} →
    {a : Addr} → Roomy w m a budget frames → m₀.Keeps m → Unrolls v m a →
    (writeObjectAt frames m budget a).Shows m₀ (writeObject budget v)
  | .nil, frames, budget, m, a, hr, _, hu => by
      obtain ⟨k,-,hf⟩ := hr.room
      obtain ⟨frames,rfl⟩ := Nat.exists_eq_succ_of_ne_zero (Nat.ne_zero_of_lt hf)
      rw [Unrolls] at hu
      rw [writeObjectAt_nil hu,writeObject]
      exact WriteRun.bare_shows (by unfold enterObjectScope; split <;> rfl)
  | .uninitialized, frames, budget, m, a, hr, _, hu => by
      obtain ⟨k,-,hf⟩ := hr.room
      obtain ⟨frames,rfl⟩ := Nat.exists_eq_succ_of_ne_zero (Nat.ne_zero_of_lt hf)
      rw [Unrolls] at hu
      rw [writeObjectAt_uninitialized hu,writeObject]
      exact WriteRun.bare_shows rfl
  | .writable v, frames, budget, m, a, hr, hm, hu => by
      obtain ⟨k,hk,hf⟩ := hr.room
      obtain ⟨frames,rfl⟩ := Nat.exists_eq_succ_of_ne_zero (Nat.ne_zero_of_lt hf)
      rw [Unrolls] at hu
      obtain ⟨p,hc,hv⟩ := hu
      obtain ⟨j,rfl,hj⟩ := hk.target hc
      rw [writeObjectAt_writable hc,writeObject]
      exact writeObjectAt_shows v frames budget
        ⟨hr.walkable.leads (.target hc),j,hj,by omega⟩ hm hv
  | .vector access leaf attrs, frames, budget, m, a, hr, hm, hu => by
      obtain ⟨k,-,hf⟩ := hr.room
      obtain ⟨frames,rfl⟩ := Nat.exists_eq_succ_of_ne_zero (Nat.ne_zero_of_lt hf)
      rw [Unrolls] at hu
      obtain ⟨given,hc,hattrs⟩ := hu
      rw [writeObjectAt_vector hc,writeObject,hattrs.length]
      have hscope := enterObjectScope_shows m₀ budget
      cases budget with
      | zero =>
        rw [scope_refused,WriteRun.append_failed rfl]
        exact hscope
      | succ budget =>
        exact hscope.append ((WriteRun.bare_shows (beginLeafVector_deferred ..)).append
          ((writeAttributesAt_shows attrs frames budget
            (fun x hx => hr.child (.attr hc hx)) hm hattrs).append (deferPayloadAt_shows hm hc)))
  | .list values attrs, frames, budget, m, a, hr, hm, hu => by
      obtain ⟨k,-,hf⟩ := hr.room
      obtain ⟨frames,rfl⟩ := Nat.exists_eq_succ_of_ne_zero (Nat.ne_zero_of_lt hf)
      rw [Unrolls] at hu
      obtain ⟨elements,given,hc,hattrs,hvalues⟩ := hu
      rw [writeObjectAt_list hc,writeObject,hattrs.length,hvalues.length]
      have hscope := enterObjectScope_shows m₀ budget
      cases budget with
      | zero =>
        rw [scope_refused,WriteRun.append_failed rfl]
        exact hscope
      | succ budget =>
        exact hscope.append ((WriteRun.bare_shows (beginListVector_deferred ..)).append
          ((writeAttributesAt_shows attrs frames budget
            (fun x hx => hr.child (.listAttr hc hx)) hm hattrs).append
            (writeValuesAt_shows values frames budget
              (fun x hx => hr.child (.element hc hx)) hm hvalues)))

theorem writeAttributesAt_shows {w : Nat} : (attrs : List (Bytes × Value)) →
    (frames budget : Nat) → {m : Heap} → {given : List (Bytes × Given)} →
    (∀ x ∈ given, Roomy w (m.during x.2) x.2.addr budget frames) → m₀.Keeps m →
    AttrsUnroll attrs m given →
    (writeAttributesAt (writeObjectAt frames) m budget given).Shows m₀
      (writeAttributes budget attrs)
  | [], frames, budget, m, given, _, _, hu => by
      rw [AttrsUnroll] at hu
      rw [hu,writeAttributesAt,writeAttributes]
      exact WriteRun.bare_shows (w := {}) rfl
  | (name,v) :: rest, frames, budget, m, given, hr, hm, hu => by
      rw [AttrsUnroll] at hu
      obtain ⟨x,more,rfl,hv,hrest⟩ := hu
      rw [writeAttributesAt,writeAttributes]
      exact (WriteRun.bare_shows (writeText_deferred name)).append
        ((writeObjectAt_shows v frames budget (hr _ List.mem_cons_self) (hm.during x) hv).append
          (writeAttributesAt_shows rest frames budget
            (fun y hy => hr y (List.mem_cons_of_mem _ hy)) hm hrest))

theorem writeValuesAt_shows {w : Nat} : (values : List Value) → (frames budget : Nat) →
    {m : Heap} → {given : List Given} →
    (∀ x ∈ given, Roomy w (m.during x) x.addr budget frames) → m₀.Keeps m →
    ValuesUnroll values m given →
    (writeValuesAt (writeObjectAt frames) m budget given).Shows m₀ (writeValues budget values)
  | [], frames, budget, m, given, _, _, hu => by
      rw [ValuesUnroll] at hu
      rw [hu,writeValuesAt,writeValues]
      exact WriteRun.bare_shows (w := {}) rfl
  | v :: rest, frames, budget, m, given, hr, hm, hu => by
      rw [ValuesUnroll] at hu
      obtain ⟨x,more,rfl,hv,hrest⟩ := hu
      rw [writeValuesAt,writeValues]
      exact (writeObjectAt_shows v frames budget (hr _ List.mem_cons_self) (hm.during x) hv).append
        (writeValuesAt_shows rest frames budget
          (fun y hy => hr y (List.mem_cons_of_mem _ hy)) hm hrest)
end

theorem WriteRun.bare_append (w u : WriteRun) : (w ++ u).bare = w.bare ++ u.bare := by
  cases h : w.error with
  | some msg =>
    have hb : w.bare.ending = some (.threw msg) := by rw [WriteRun.bare,h,Option.map_some]
    rw [WriteRun.append_failed h,PointerRun.append_ended hb]
  | none =>
    have hb : w.bare.ending = none := by rw [WriteRun.bare,h,Option.map_none]
    rw [WriteRun.append_ok h,PointerRun.append_ok hb]
    rfl

theorem emitPayloadAt_lasting {p : DeferredPayload} {d : Deferred} (h : Points m₀ p d)
    (hl : p.objectPtr.Lasting) : emitPayloadAt m₀ true p = (emitPayload d).bare := by
  obtain ⟨attrs,hc⟩ := h.behind hl
  rw [emitPayloadAt,hc]
  simp only [h.access,h.type,and_self,if_true,requirePayloadFlush,WriteRun.empty_append]

theorem emitPayloadAt_passing (hm : ∀ n, m₀ (.passing n) = none) {p : DeferredPayload}
    (hl : ¬ p.objectPtr.Lasting) : (emitPayloadAt m₀ true p).ending = some .undefined := by
  rw [emitPayloadAt]
  cases hp : p.objectPtr with
  | lasting n => rw [hp] at hl; exact absurd trivial hl
  | passing n => rw [hm n]

/-- A run that comes to its end under a condition, and reads what is gone otherwise. -/
structure PointerRun.Hinges (r : PointerRun) (c : Prop) : Prop where
  fine : c → r.ending = none
  lost : ¬ c → r.ending = some .undefined

theorem PointerRun.Hinges.append {r s : PointerRun} {c d : Prop} (h : r.Hinges c)
    (k : s.Hinges d) : (r ++ s).Hinges (c ∧ d) := by
  refine ⟨fun hcd => PointerRun.ending_append_eq_none.mpr ⟨h.fine hcd.1,k.fine hcd.2⟩,
    fun hcd => ?_⟩
  by_cases hc : c
  · rw [PointerRun.ending_append,h.fine hc,Option.none_or]
    exact k.lost fun hd => hcd ⟨hc,hd⟩
  · rw [PointerRun.append_ended (h.lost hc)]
    exact h.lost hc

theorem PointerRun.Hinges.iff {r : PointerRun} {c d : Prop} (h : r.Hinges c) (hcd : c ↔ d) :
    r.Hinges d :=
  ⟨fun hd => h.fine (hcd.mpr hd),fun hd => h.lost fun hc => hd (hcd.mp hc)⟩

def AllLast (ps : List DeferredPayload) : Prop := ∀ p ∈ ps, p.objectPtr.Lasting

theorem flushPayloadGroupAt_lasting {ps : List DeferredPayload} {ds : List Deferred}
    (h : List.Forall₂ (Points m₀) ps ds) (hl : AllLast ps) :
    flushPayloadGroupAt m₀ true ps = (flushPayloadGroup ds).bare := by
  induction h with
  | nil => rfl
  | @cons p d ps ds hp hrest ih =>
    rw [flushPayloadGroupAt,emitPayloadAt_lasting hp (hl p List.mem_cons_self),
      ih fun q hq => hl q (List.mem_cons_of_mem _ hq)]
    exact (WriteRun.bare_append ..).symm

theorem flushPayloadGroupAt_hinges (hm : ∀ n, m₀ (.passing n) = none)
    {ps : List DeferredPayload} {ds : List Deferred} (h : List.Forall₂ (Points m₀) ps ds)
    (hok : (flushPayloadGroup ds).error = none) :
    (flushPayloadGroupAt m₀ true ps).Hinges (AllLast ps) := by
  induction h with
  | nil => exact ⟨fun _ => rfl,fun hl => absurd (fun p hp => by cases hp) hl⟩
  | @cons p d ps ds hp hrest ih =>
    rw [flushPayloadGroup,writeEach,WriteRun.error_append_eq_none] at hok
    have hone : (emitPayloadAt m₀ true p).Hinges p.objectPtr.Lasting := by
      refine ⟨fun hl => ?_,emitPayloadAt_passing hm⟩
      rw [emitPayloadAt_lasting hp hl,WriteRun.bare,hok.1,Option.map_none]
    refine (hone.append (ih hok.2)).iff ?_
    rw [AllLast,AllLast,List.forall_mem_cons]

variable {q : PayloadQueues} {p : Payloads}
  (h : ∀ g, List.Forall₂ (Points m₀) (q.queue g) (p.queue g))
include h

theorem flushPayloadsAt_lasting (hl : ∀ g, AllLast (q.queue g)) :
    flushPayloadsAt m₀ q = (flushPayloads p).bare := by
  have group : ∀ g, flushPayloadGroupAt m₀ true (q.queue g) =
      (flushPayloadGroup (p.queue g)).bare := fun g => flushPayloadGroupAt_lasting (h g) (hl g)
  simp only [flushPayloads,WriteRun.bare_append]
  exact congr (congrArg _ (group .string)) (congr (congrArg _ (group .complex))
    (congr (congrArg _ (group .real)) (congr (congrArg _ (group .integer)) (group .raw))))

theorem flushPayloadsAt_hinges (hm : ∀ n, m₀ (.passing n) = none)
    (hok : (flushPayloads p).error = none) :
    (flushPayloadsAt m₀ q).Hinges (∀ g, AllLast (q.queue g)) := by
  simp only [flushPayloads,WriteRun.error_append_eq_none] at hok
  obtain ⟨hstring,hcomplex,hreal,hinteger,hraw⟩ := hok
  refine PointerRun.Hinges.iff ((flushPayloadGroupAt_hinges hm (h .string) hstring).append
    ((flushPayloadGroupAt_hinges hm (h .complex) hcomplex).append
      ((flushPayloadGroupAt_hinges hm (h .real) hreal).append
        ((flushPayloadGroupAt_hinges hm (h .integer) hinteger).append
          (flushPayloadGroupAt_hinges hm (h .raw) hraw))))) ?_
  constructor
  · rintro ⟨hs,hc,hr,hi,hw⟩ g
    cases g with
    | string => exact hs
    | complex => exact hc
    | real => exact hr
    | integer => exact hi
    | raw => exact hw
  · intro hall
    exact ⟨hall .string,hall .complex,hall .real,hall .integer,hall .raw⟩

end

/-- Every vector with elements that is reached is in storage that lasts. -/
def Lasts (s : Heap × Addr) : Prop :=
  ∀ t access leaf attrs, Reaches s t → t.1 t.2 = some (.vector access leaf attrs) →
    0 < leaf.size → t.2.Lasting

def PutOff (s : Heap × Addr) (a : Addr) : Prop :=
  ∃ t access leaf attrs, Reaches s t ∧ t.1 t.2 = some (.vector access leaf attrs) ∧
    0 < leaf.size ∧ a = t.2

theorem lasts_iff (s : Heap × Addr) : Lasts s ↔ ∀ a, PutOff s a → a.Lasting := by
  constructor
  · rintro h a ⟨t,access,leaf,attrs,ht,hc,hs,rfl⟩
    exact h t access leaf attrs ht hc hs
  · intro h t access leaf attrs ht hc hs
    exact h t.2 ⟨t,access,leaf,attrs,ht,hc,hs,rfl⟩

theorem PutOff.leads {s t : Heap × Addr} {a : Addr} (ht : Leads s t) (h : PutOff t a) :
    PutOff s a := by
  obtain ⟨u,access,leaf,attrs,hu,hrest⟩ := h
  exact ⟨u,access,leaf,attrs,.head ht hu,hrest⟩

def PointerRun.Defers (Q : Addr → Prop) (r : PointerRun) : Prop :=
  ∀ g, ∀ p ∈ r.deferred.queue g, Q p.objectPtr

theorem defers_partWise (Q : Addr → Prop) : PartWise (PointerRun.Defers Q) where
  empty g p hp := by
    rw [PayloadQueues.queue_empty] at hp
    cases hp
  append x y hx hy g p hp := by
    cases he : x.ending with
    | some e =>
      rw [PointerRun.append_ended he] at hp
      exact hx g p hp
    | none =>
      rw [PointerRun.append_ok he,PayloadQueues.queue_append] at hp
      exact (List.mem_append.mp hp).elim (hx g p) (hy g p)

theorem WriteRun.bare_defers (Q : Addr → Prop) (w : WriteRun) : w.bare.Defers Q :=
  (defers_partWise Q).empty

theorem writeObjectAt_defers (frames : Nat) {m : Heap} {a : Addr} {budget : Nat} :
    (writeObjectAt frames m budget a).Defers (PutOff (m,a)) := by
  induction frames generalizing m a budget with
  | zero => exact WriteRun.bare_defers _ {}
  | succ frames ih =>
    have inside : ∀ {t : Heap × Addr} {b : Nat}, Leads (m,a) t →
        (writeObjectAt frames t.1 b t.2).Defers (PutOff (m,a)) :=
      fun ht g p hp => (ih g p hp).leads ht
    have rules := defers_partWise (PutOff (m,a))
    cases hc : m a with
    | none =>
      rw [writeObjectAt,hc]
      exact WriteRun.bare_defers _ {}
    | some cell =>
      cases cell with
      | nil =>
        rw [writeObjectAt_nil hc]
        exact WriteRun.bare_defers _ _
      | uninitialized =>
        rw [writeObjectAt_uninitialized hc]
        exact WriteRun.bare_defers _ _
      | writable p =>
        rw [writeObjectAt_writable hc]
        exact inside (.target hc)
      | vector access leaf attrs =>
        rw [writeObjectAt_vector hc]
        have hattrs := rules.attributes (budget-1)
          (fun name => WriteRun.bare_defers _ (writeAttributeName name)) attrs
          fun x hx => inside (.attr hc hx)
        refine rules.append _ _ (WriteRun.bare_defers _ _)
          (rules.append _ _ (WriteRun.bare_defers _ _) (rules.append _ _ hattrs ?_))
        intro g p hp
        rw [deferPayloadAt_queue] at hp
        split at hp
        · rename_i hs
          rw [List.mem_singleton.mp hp]
          exact ⟨(m,a),access,leaf,attrs,.refl,hc,hs.1,rfl⟩
        · cases hp
      | list values attrs =>
        rw [writeObjectAt_list hc]
        have hattrs := rules.attributes (budget-1)
          (fun name => WriteRun.bare_defers _ (writeAttributeName name)) attrs
          fun x hx => inside (.listAttr hc hx)
        have hvalues := rules.values (budget-1) values
          fun x hx => inside (.element hc hx)
        exact rules.append _ _ (WriteRun.bare_defers _ _)
          (rules.append _ _ (WriteRun.bare_defers _ _) (rules.append _ _ hattrs hvalues))

def PointerRun.Has (r : PointerRun) (a : Addr) : Prop :=
  r.ending = none ∧ ∃ g, ∃ p ∈ r.deferred.queue g, p.objectPtr = a

section
variable {r s : PointerRun} {a : Addr}

theorem PointerRun.Has.left (h : s.ending = none) (hr : r.Has a) : (r ++ s).Has a := by
  obtain ⟨he,g,p,hp,ha⟩ := hr
  refine ⟨PointerRun.ending_append_eq_none.mpr ⟨he,h⟩,g,p,?_,ha⟩
  rw [PointerRun.append_ok he,PayloadQueues.queue_append]
  exact List.mem_append_left _ hp

theorem PointerRun.Has.right (h : r.ending = none) (hs : s.Has a) : (r ++ s).Has a := by
  obtain ⟨he,g,p,hp,ha⟩ := hs
  refine ⟨PointerRun.ending_append_eq_none.mpr ⟨h,he⟩,g,p,?_,ha⟩
  rw [PointerRun.append_ok h,PayloadQueues.queue_append]
  exact List.mem_append_right _ hp

variable {self : Heap → Nat → Addr → PointerRun} {m : Heap} {budget : Nat}

theorem writeAttributesAt_has {x : Bytes × Given} : (attrs : List (Bytes × Given)) →
    x ∈ attrs → (writeAttributesAt self m budget attrs).ending = none →
    ((self (m.during x.2) budget x.2.addr).ending = none →
      (self (m.during x.2) budget x.2.addr).Has a) →
    (writeAttributesAt self m budget attrs).Has a
  | y :: rest, hx, h, hs => by
      rw [writeAttributesAt] at h ⊢
      simp only [PointerRun.ending_append_eq_none] at h
      refine .right h.1 ?_
      cases hx with
      | head => exact .left h.2.2 (hs h.2.1)
      | tail _ hx => exact .right h.2.1 (writeAttributesAt_has rest hx h.2.2 hs)

theorem writeValuesAt_has {x : Given} : (values : List Given) →
    x ∈ values → (writeValuesAt self m budget values).ending = none →
    ((self (m.during x) budget x.addr).ending = none →
      (self (m.during x) budget x.addr).Has a) →
    (writeValuesAt self m budget values).Has a
  | y :: rest, hx, h, hs => by
      rw [writeValuesAt] at h ⊢
      rw [PointerRun.ending_append_eq_none] at h
      cases hx with
      | head => exact .left h.2 (hs h.1)
      | tail _ hx => exact .right h.1 (writeValuesAt_has rest hx h.2 hs)

end

theorem writeObjectAt_has (frames : Nat) {m : Heap} {a b : Addr} {budget : Nat}
    (h : (writeObjectAt frames m budget a).ending = none) (hb : PutOff (m,a) b) :
    (writeObjectAt frames m budget a).Has b := by
  obtain ⟨t,access,leaf,attrs,ht,hc,hs,rfl⟩ := hb
  induction frames generalizing m a budget with
  | zero => cases h
  | succ frames ih =>
    rcases Relation.ReflTransGen.cases_head ht with rfl | ⟨u,hu,hrest⟩
    · rw [writeObjectAt_vector hc] at h ⊢
      simp only [PointerRun.ending_append_eq_none] at h
      refine .right h.1 (.right h.2.1 (.right h.2.2.1 ⟨deferPayloadAt_ending ..,leaf.group,
        ⟨a,access,leaf.type⟩,?_,rfl⟩))
      rw [deferPayloadAt_queue,if_pos ⟨hs,rfl⟩]
      exact List.mem_singleton_self _
    · cases hu with
      | attr cell mem =>
        rw [writeObjectAt_vector cell] at h ⊢
        simp only [PointerRun.ending_append_eq_none] at h
        exact .right h.1 (.right h.2.1 (.left h.2.2.2
          (writeAttributesAt_has _ mem h.2.2.1 fun hx => ih hx hrest)))
      | listAttr cell mem =>
        rw [writeObjectAt_list cell] at h ⊢
        simp only [PointerRun.ending_append_eq_none] at h
        exact .right h.1 (.right h.2.1 (.left h.2.2.2
          (writeAttributesAt_has _ mem h.2.2.1 fun hx => ih hx hrest)))
      | element cell mem =>
        rw [writeObjectAt_list cell] at h ⊢
        simp only [PointerRun.ending_append_eq_none] at h
        exact .right h.1 (.right h.2.1 (.right h.2.2.1
          (writeValuesAt_has _ mem h.2.2.2 fun hx => ih hx hrest)))
      | target cell =>
        rw [writeObjectAt_writable cell] at h ⊢
        exact ih h hrest

theorem allLast_iff {frames budget : Nat} {m : Heap} {a : Addr}
    (h : (writeObjectAt frames m budget a).ending = none) :
    (∀ g, AllLast ((writeObjectAt frames m budget a).deferred.queue g)) ↔ Lasts (m,a) := by
  rw [lasts_iff]
  constructor
  · intro hall b hb
    obtain ⟨-,g,p,hp,rfl⟩ := writeObjectAt_has frames h hb
    exact hall g p hp
  · intro hl g p hp
    exact hl _ (writeObjectAt_defers frames g p hp)

theorem PointerRun.Settles.bounded {r : PointerRun} (h : r.Settles) :
    r.ending ≠ some .overflow := by
  intro he
  rcases h with hr | ⟨msg,hr⟩
  · rw [hr] at he
    cases he
  · rw [hr] at he
    cases he

theorem emitPayloadAt_bounded (m : Heap) (flushing : Bool) (p : DeferredPayload) :
    (emitPayloadAt m flushing p).ending ≠ some .overflow := by
  rw [emitPayloadAt]
  split
  · split
    · exact (WriteRun.bare_settles _).bounded
    · intro h
      cases h
  · intro h
    cases h

theorem bounded_append {r s : PointerRun} (h : r.ending ≠ some .overflow)
    (k : s.ending ≠ some .overflow) : (r ++ s).ending ≠ some .overflow := by
  rw [PointerRun.ending_append]
  cases hr : r.ending with
  | none => exact k
  | some e =>
    rw [hr] at h
    exact h

theorem flushPayloadGroupAt_bounded (m : Heap) (flushing : Bool) :
    (ps : List DeferredPayload) →
      (flushPayloadGroupAt m flushing ps).ending ≠ some .overflow
  | [] => fun h => by cases h
  | p :: rest => bounded_append (emitPayloadAt_bounded m flushing p)
      (flushPayloadGroupAt_bounded m flushing rest)

theorem flushPayloadsAt_bounded (m : Heap) (q : PayloadQueues) :
    (flushPayloadsAt m q).ending ≠ some .overflow :=
  have group := flushPayloadGroupAt_bounded m true
  bounded_append (group _) (bounded_append (group _) (bounded_append (group _)
    (bounded_append (group _) (group _))))

section
variable {w : Nat} {m : Heap} {root : Addr} (h : Walkable w (m,root)) {maxDepth frames : Nat}
  (hf : (maxDepth+1)*(w+1) ≤ frames)
include h hf

theorem roomy_root : Roomy w m root maxDepth frames := by
  refine ⟨h,w,h.chains _ .refl,?_⟩
  rw [Nat.succ_mul] at hf
  omega

theorem streamWriteAt_bounded : (streamWriteAt frames m maxDepth root).ending ≠
    some .overflow := by
  obtain ⟨hs,k,hk,hlt⟩ := roomy_root h hf
  exact bounded_append (WriteRun.bare_settles _).bounded
    (bounded_append (writeObjectAt_settles frames hs hk hlt).bounded
      (flushPayloadsAt_bounded _ _))

theorem streamWriteAt_frames : streamWriteAt frames m maxDepth root =
    streamWriteAt ((maxDepth+1)*(w+1)) m maxDepth root := by
  obtain ⟨hs,k,hk,hlt⟩ := roomy_root h (Nat.le_refl ((maxDepth+1)*(w+1)))
  have heq := writeObjectAt_frames frames _ hs hk (Nat.lt_of_lt_of_le hlt hf) hlt
  rw [streamWriteAt,streamWriteAt,heq]

/-- Without a finite tree behind the root the header pass ends in an exception. -/
theorem streamWriteAt_endless (hv : ∀ v, ¬ Unrolls v m root) :
    ∃ msg, (streamWriteAt frames m maxDepth root).ending = some (.threw msg) := by
  obtain ⟨hs,k,hk,hlt⟩ := roomy_root h hf
  rw [streamWriteAt]
  rcases (checkedMaxNestingDepth maxDepth).bare_settles with hz | ⟨msg,hz⟩
  · rcases writeObjectAt_settles frames hs hk hlt with hr | ⟨msg,hr⟩
    · obtain ⟨v,hu⟩ := writeObjectAt_unrolls frames hr
      exact absurd hu (hv v)
    · exact ⟨msg,by rw [PointerRun.append_ok hz,PointerRun.append_ended hr]; exact hr⟩
  · exact ⟨msg,by rw [PointerRun.append_ended hz]; exact hz⟩

variable {v : Value} (hu : Unrolls v m root)
include hu

theorem streamWriteAt_lasting (hl : Lasts (m,root)) :
    (streamWriteAt frames m maxDepth root).pushed = (streamWrite maxDepth v).pushed ∧
      (streamWriteAt frames m maxDepth root).ending =
        (streamWrite maxDepth v).error.map .threw := by
  have hs : (writeObjectAt frames m maxDepth root).Shows m (writeObject maxDepth v) :=
    writeObjectAt_shows v frames maxDepth (roomy_root h hf) (fun _ => rfl) hu
  have same : ∀ {x : PointerRun} {u : WriteRun},
      x.pushed = u.pushed ∧ x.ending = u.error.map .threw →
      ((checkedMaxNestingDepth maxDepth).bare ++ x).pushed =
          (checkedMaxNestingDepth maxDepth ++ u).pushed ∧
        ((checkedMaxNestingDepth maxDepth).bare ++ x).ending =
          (checkedMaxNestingDepth maxDepth ++ u).error.map .threw := by
    rintro x u ⟨hp,he⟩
    by_cases hd : maxDepth = 0
    · rw [hd]
      exact ⟨rfl,rfl⟩
    · rw [checkedMaxNestingDepth,if_neg hd,WriteRun.empty_append,PointerRun.append_ok rfl]
      exact ⟨hp,he⟩
  refine same ?_
  cases he : (writeObject maxDepth v).error with
  | some msg =>
    have hr : (writeObjectAt frames m maxDepth root).ending = some (.threw msg) := by
      rw [hs.ending,he,Option.map_some]
    rw [PointerRun.append_ended hr,WriteRun.append_failed he]
    exact ⟨hs.pushed,hs.ending⟩
  | none =>
    have hr : (writeObjectAt frames m maxDepth root).ending = none := by
      rw [hs.ending,he,Option.map_none]
    rw [PointerRun.append_ok hr,WriteRun.append_ok he,
      flushPayloadsAt_lasting hs.deferred ((allLast_iff hr).mpr hl)]
    exact ⟨by rw [hs.pushed]; rfl,rfl⟩

theorem streamWriteAt_hinges (hm : ∀ n, m (.passing n) = none)
    (hok : (streamWrite maxDepth v).error = none) :
    (streamWriteAt frames m maxDepth root).Hinges (Lasts (m,root)) := by
  have hs : (writeObjectAt frames m maxDepth root).Shows m (writeObject maxDepth v) :=
    writeObjectAt_shows v frames maxDepth (roomy_root h hf) (fun _ => rfl) hu
  rw [streamWrite,WriteRun.error_append_eq_none,WriteRun.error_append_eq_none] at hok
  obtain ⟨hdepth,hheader,hflush⟩ := hok
  have hr : (writeObjectAt frames m maxDepth root).ending = none := by
    rw [hs.ending,hheader,Option.map_none]
  have hq := (flushPayloadsAt_hinges hs.deferred hm hflush).iff (allLast_iff hr)
  have hz : (checkedMaxNestingDepth maxDepth).bare.ending = none := by
    rw [WriteRun.bare,hdepth,Option.map_none]
  rw [streamWriteAt,PointerRun.append_ok hz,PointerRun.append_ok hr]
  exact ⟨hq.fine,hq.lost⟩

end

def circle : Heap
  | .lasting 0 => some (.list [.reference (.lasting 1)] [])
  | .lasting 1 => some (.writable (.lasting 0))
  | _ => none

theorem circle_walkable : Walkable 1 (circle,.lasting 0) := by
  have inside : ∀ t, Reaches (circle,.lasting 0) t →
      t = (circle,.lasting 0) ∨ t = (circle,.lasting 1) := by
    intro t ht
    induction ht with
    | refl => exact .inl rfl
    | tail _ hstep ih =>
      rcases ih with rfl | rfl
      · cases hstep with
        | attr cell => cases cell
        | target cell => cases cell
        | listAttr cell mem =>
          cases cell
          cases mem
        | element cell mem =>
          cases cell
          rw [List.mem_singleton.mp mem]
          exact .inr rfl
      · cases hstep with
        | attr cell => cases cell
        | listAttr cell => cases cell
        | element cell => cases cell
        | target cell =>
          cases cell
          exact .inl rfl
  constructor
  · intro t ht
    rcases inside t ht with rfl | rfl
    · intro h
      cases h
    · intro h
      cases h
  · intro t ht
    rcases inside t ht with rfl | rfl
    · intro p hp
      cases hp
    · intro p hp
      cases hp
      intro p hp
      cases hp

theorem circle_endless : (v : Value) → ¬ Unrolls v circle (.lasting 0)
  | .nil, h => by cases h
  | .uninitialized, h => by cases h
  | .vector .., h => by
      rw [Unrolls] at h
      obtain ⟨given,hc,-⟩ := h
      cases hc
  | .writable _, h => by
      rw [Unrolls] at h
      obtain ⟨p,hc,-⟩ := h
      cases hc
  | .list values _, h => by
      rw [Unrolls] at h
      obtain ⟨elements,given,hc,-,hvalues⟩ := h
      cases hc
      cases values with
      | nil => cases hvalues
      | cons u rest =>
        rw [ValuesUnroll] at hvalues
        obtain ⟨x,more,hx,hu,-⟩ := hvalues
        cases hx
        cases u with
        | nil => cases hu
        | uninitialized => cases hu
        | vector access leaf attrs =>
          obtain ⟨given,hc,-⟩ := hu
          cases hc
        | list values attrs =>
          obtain ⟨elements,given,hc,-,-⟩ := hu
          cases hc
        | writable v =>
          rw [Unrolls] at hu
          obtain ⟨p,hc,hv⟩ := hu
          cases hc
          exact circle_endless v hv

def madeInPassing : Heap
  | .lasting 0 => some (.list [.temporary [(0,.vector .direct (.raw [7]) [])] 0] [])
  | _ => none

example : (streamWriteAt 3 madeInPassing 2 (.lasting 0)).ending = some .undefined := by rfl

end QData
