import QData.FormatGrammar
import QData.Nesting
import QData.ReaderLimits
/-! The deserializer accepts nothing but the format: what it takes for an object is one of the
object's encodings. -/
set_option autoImplicit false

namespace QData
open Words Requests Languages

/-! What the header pass leaves behind. -/

def Agrees (cells cells' : List Leaf) : Prop :=
  ∀ (a : Nat) (leaf : Leaf), cells[a]? = some leaf →
    ∃ leaf' : Leaf, cells'[a]? = some leaf' ∧ leaf'.type = leaf.type ∧ leaf'.size = leaf.size

theorem Agrees.refl (cells : List Leaf) : Agrees cells cells :=
  fun _ leaf h => ⟨leaf,h,rfl,rfl⟩

theorem Agrees.trans {a b c : List Leaf} (h : Agrees a b) (h' : Agrees b c) : Agrees a c := by
  intro i leaf hi
  obtain ⟨leaf₁,h₁,ht₁,hs₁⟩ := h i leaf hi
  obtain ⟨leaf₂,h₂,ht₂,hs₂⟩ := h' i leaf₁ h₁
  exact ⟨leaf₂,h₂,ht₂.trans ht₁,hs₂.trans hs₁⟩

theorem Agrees.earlier {a b c : List Leaf} (h : a <+: b) (h' : Agrees b c) : Agrees a c := by
  obtain ⟨more,rfl⟩ := h
  exact fun i leaf hi => h' i leaf (getElem?_grow hi more)

theorem Agrees.set {cells : List Leaf} {a : Nat} {leaf leaf' : Leaf}
    (ha : cells[a]? = some leaf) (ht : leaf'.type = leaf.type) (hs : leaf'.size = leaf.size) :
    Agrees cells (cells.set a leaf') := by
  intro i x hx
  have hlt := (List.getElem?_eq_some_iff.mp ha).1
  by_cases hi : a = i
  · subst hi
    rw [ha] at hx
    cases hx
    exact ⟨leaf',List.getElem?_set_self hlt,ht,hs⟩
  · exact ⟨x,by rw [List.getElem?_set_ne hi,hx],rfl,rfl⟩

theorem Leaf.group_eq {leaf leaf' : Leaf} (h : leaf'.type = leaf.type) :
    leaf'.group = leaf.group := by
  cases leaf <;> cases leaf' <;> first | rfl | cases h

def cellAt (cells : List Leaf) (a : Nat) : Leaf := cells.getD a (.raw [])

theorem cellAt_eq {cells : List Leaf} {a : Nat} {leaf : Leaf} (h : cells[a]? = some leaf) :
    cellAt cells a = leaf := by
  rw [cellAt,List.getD_eq_getElem?_getD,h]
  rfl

mutual
def Shell.queued (cells : List Leaf) (g : Group) : Shell → List Nat
  | .nil => []
  | .vector a attrs =>
      attrsQueued cells g attrs ++
        if 0 < (cellAt cells a).size ∧ (cellAt cells a).group = g then [a] else []
  | .list values attrs => attrsQueued cells g attrs ++ valuesQueued cells g values

def attrsQueued (cells : List Leaf) (g : Group) : List (Bytes × Shell) → List Nat
  | [] => []
  | (_,x) :: rest => x.queued cells g ++ attrsQueued cells g rest

def valuesQueued (cells : List Leaf) (g : Group) : List Shell → List Nat
  | [] => []
  | x :: rest => x.queued cells g ++ valuesQueued cells g rest
end

mutual
theorem resolve_payloads (cells : List Leaf) (g : Group) : (x : Shell) →
    (x.resolve cells).payloads g = (x.queued cells g).map (cellAt cells)
  | .nil => rfl
  | .vector a attrs => by
      have ih := resolveAttrs_payloads cells g attrs
      simp only [Shell.resolve,Object.payloads,Shell.queued,List.map_append,ih]
      congr 1
      change (if 0 < (cellAt cells a).size ∧ (cellAt cells a).group = g then _ else _) = _
      split <;> rfl
  | .list values attrs => by
      have iha := resolveAttrs_payloads cells g attrs
      have ihv := resolveValues_payloads cells g values
      simp only [Shell.resolve,Object.payloads,Shell.queued,List.map_append,iha,ihv]

theorem resolveAttrs_payloads (cells : List Leaf) (g : Group) :
    (attrs : List (Bytes × Shell)) →
    attrsPayloads g (resolveAttrs cells attrs) = (attrsQueued cells g attrs).map (cellAt cells)
  | [] => rfl
  | (name,x) :: rest => by
      have ihx := resolve_payloads cells g x
      have ih := resolveAttrs_payloads cells g rest
      simp only [resolveAttrs,attrsPayloads,attrsQueued,List.map_append,ihx,ih]

theorem resolveValues_payloads (cells : List Leaf) (g : Group) : (values : List Shell) →
    valuesPayloads g (resolveValues cells values) =
      (valuesQueued cells g values).map (cellAt cells)
  | [] => rfl
  | x :: rest => by
      have ihx := resolve_payloads cells g x
      have ih := resolveValues_payloads cells g rest
      simp only [resolveValues,valuesPayloads,valuesQueued,List.map_append,ihx,ih]
end

mutual
theorem queued_group (cells : List Leaf) (g : Group) : (x : Shell) →
    ∀ a ∈ x.queued cells g, (cellAt cells a).group = g
  | .nil, _, h => by cases h
  | .vector a attrs, b, h => by
      rcases List.mem_append.mp h with h | h
      · exact attrsQueued_group cells g attrs b h
      · split at h
        · next ha => exact List.mem_singleton.mp h ▸ ha.2
        · cases h
  | .list values attrs, b, h => by
      rcases List.mem_append.mp h with h | h
      · exact attrsQueued_group cells g attrs b h
      · exact valuesQueued_group cells g values b h

theorem attrsQueued_group (cells : List Leaf) (g : Group) : (attrs : List (Bytes × Shell)) →
    ∀ a ∈ attrsQueued cells g attrs, (cellAt cells a).group = g
  | [], _, h => by cases h
  | (_,x) :: rest, b, h => by
      rcases List.mem_append.mp h with h | h
      · exact queued_group cells g x b h
      · exact attrsQueued_group cells g rest b h

theorem valuesQueued_group (cells : List Leaf) (g : Group) : (values : List Shell) →
    ∀ a ∈ valuesQueued cells g values, (cellAt cells a).group = g
  | [], _, h => by cases h
  | x :: rest, b, h => by
      rcases List.mem_append.mp h with h | h
      · exact queued_group cells g x b h
      · exact valuesQueued_group cells g rest b h
end

/-- What a stretch of the header pass adds: new vectors, and some of them at the ends of the
queues, each once. -/
structure Growth (st st' : Building) (queued : Group → List Nat) : Prop where
  queue : ∀ g, st'.queue g = st.queue g ++ queued g
  once : ∀ g, (queued g).Nodup
  fresh : ∀ g, ∀ a ∈ queued g, st.cells.length ≤ a ∧ a < st'.cells.length

theorem Growth.nothing (st : Building) : Growth st st fun _ => [] :=
  ⟨fun _ => (List.append_nil _).symm,fun _ => List.nodup_nil,fun _ _ h => by cases h⟩

theorem Growth.trans {st st' st'' : Building} {queued queued' : Group → List Nat}
    (h : Growth st st' queued) (h' : Growth st' st'' queued')
    (hc : st.cells.length ≤ st'.cells.length) (hc' : st'.cells.length ≤ st''.cells.length) :
    Growth st st'' fun g => queued g ++ queued' g where
  queue g := by rw [h'.queue,h.queue,List.append_assoc]
  once g := by
    refine List.nodup_append.mpr ⟨h.once g,h'.once g,fun a ha b hb hab => ?_⟩
    have h₁ := (h.fresh g a ha).2
    have h₂ := (h'.fresh g b hb).1
    omega
  fresh g a ha := by
    rcases List.mem_append.mp ha with ha | ha
    · have := h.fresh g a ha
      omega
    · have := h'.fresh g a ha
      omega

theorem Growth.vector {st st' : Building} {leaf : Leaf} {queued : Group → List Nat}
    (h : Growth (st.allocate leaf) st' queued)
    (hc : (st.allocate leaf).cells.length ≤ st'.cells.length) :
    Growth st (st'.register st.cells.length leaf) fun g =>
      queued g ++ if 0 < leaf.size ∧ leaf.group = g then [st.cells.length] else [] := by
  have hlen : (st.allocate leaf).cells.length = st.cells.length+1 := by simp [Building.allocate]
  refine ⟨fun g => ?_,fun g => ?_,fun g a ha => ?_⟩
  · rw [Building.queue_register,h.queue,Building.queue_allocate,List.append_assoc]
  · refine List.nodup_append.mpr ⟨h.once g,by split <;> simp,fun a ha b hb hab => ?_⟩
    have hfresh := (h.fresh g a ha).1
    split at hb
    · rw [List.mem_singleton.mp hb] at hab
      omega
    · cases hb
  · rw [Building.cells_register]
    rcases List.mem_append.mp ha with ha | ha
    · have hfresh := h.fresh g a ha
      omega
    · split at ha
      · rw [List.mem_singleton.mp ha]
        omega
      · cases ha

structure Reads (st st' : Building) (encoded : List Leaf → Prop)
    (queued : List Leaf → Group → List Nat) : Prop where
  grown : st.cells <+: st'.cells
  read : ∀ cells, Agrees st'.cells cells → encoded cells ∧ Growth st st' (queued cells)

theorem Reads.trans {st st' st'' : Building} {encoded encoded' both : List Leaf → Prop}
    {queued queued' all : List Leaf → Group → List Nat} (h : Reads st st' encoded queued)
    (h' : Reads st' st'' encoded' queued')
    (hboth : ∀ cells, encoded cells → encoded' cells → both cells)
    (hall : ∀ cells g, all cells g = queued cells g ++ queued' cells g) :
    Reads st st'' both all where
  grown := h.grown.trans h'.grown
  read cells hc := by
    obtain ⟨he,hq⟩ := h.read cells (.earlier h'.grown hc)
    obtain ⟨he',hq'⟩ := h'.read cells hc
    refine ⟨hboth cells he he',?_⟩
    rw [funext (hall cells)]
    exact hq.trans hq' h.grown.length_le h'.grown.length_le

theorem checkedSize_eq_ok {value limit n : Nat} {msg : String} {s t : Bytes}
    (h : (if value > limit then throwDirectly msg else pure value : Reader Nat).run channel s =
      .ok (n,t)) : value ≤ limit ∧ n = value ∧ t = s := by
  split at h
  · cases h
  · next hv =>
    cases h
    exact ⟨Nat.not_lt.mp hv,rfl,rfl⟩

section
variable {self : Building → Reader (Shell × Building)} {d : Nat}
  (hself : ∀ {st st' : Building} {x : Shell} {s t : Bytes},
    (self st).run channel s = .ok ((x,st'),t) → ∃ bs, s = bs ++ t ∧
      Reads st st' (fun cells => HeadersEncode d (x.resolve cells) bs)
        fun cells g => x.queued cells g)
include hself

theorem readAttributeLoop_takes {n : Nat} {st st' : Building} {attrs : List (Bytes × Shell)}
    {s t : Bytes} (h : (readAttributeLoop self n st).run channel s = .ok ((attrs,st'),t)) :
    ∃ bs, s = bs ++ t ∧ attrs.length = n ∧
      Reads st st' (fun cells => AttributesEncode d (resolveAttrs cells attrs) bs)
        fun cells g => attrsQueued cells g attrs := by
  induction n generalizing st attrs s with
  | zero =>
    cases h
    exact ⟨[],rfl,rfl,List.prefix_refl _,fun cells _ => ⟨.nil,.nothing _⟩⟩
  | succ n ih =>
    rw [readAttributeLoop_succ] at h
    obtain ⟨name,s₁,hname,h⟩ := run_bind_eq_ok.mp h
    obtain ⟨⟨x,st₁⟩,s₂,hx,h⟩ := run_bind_eq_ok.mp h
    obtain ⟨⟨rest,st₂⟩,s₃,hrest,hret⟩ := run_bind_eq_ok.mp h
    cases hret
    obtain ⟨header,hheader,hfits,rfl⟩ := header_text.mp (readAttributeName_eq_ok.mp hname)
    obtain ⟨xs,rfl,hread⟩ := hself hx
    obtain ⟨rs,rfl,hl,hreads⟩ := ih hrest
    refine ⟨header ++ name ++ xs ++ rs,by simp only [List.append_assoc],
      by rw [List.length_cons,hl],hread.trans hreads (fun cells he he' => ?_) fun _ _ => rfl⟩
    exact .cons (.text hheader hfits) he he'

theorem readValues_takes {n : Nat} {st st' : Building} {values : List Shell}
    {s t : Bytes} (h : (readValues self n st).run channel s = .ok ((values,st'),t)) :
    ∃ bs, s = bs ++ t ∧ values.length = n ∧
      Reads st st' (fun cells => ValuesEncode d (resolveValues cells values) bs)
        fun cells g => valuesQueued cells g values := by
  induction n generalizing st values s with
  | zero =>
    cases h
    exact ⟨[],rfl,rfl,List.prefix_refl _,fun cells _ => ⟨.nil,.nothing _⟩⟩
  | succ n ih =>
    rw [readValues] at h
    obtain ⟨⟨x,st₁⟩,s₂,hx,h⟩ := run_bind_eq_ok.mp h
    obtain ⟨⟨rest,st₂⟩,s₃,hrest,hret⟩ := run_bind_eq_ok.mp h
    cases hret
    obtain ⟨xs,rfl,hread⟩ := hself hx
    obtain ⟨rs,rfl,hl,hreads⟩ := ih hrest
    exact ⟨xs ++ rs,by simp only [List.append_assoc],by rw [List.length_cons,hl],
      hread.trans hreads (fun cells he he' => .cons he he') fun _ _ => rfl⟩

theorem readAttributes_takes {n : Nat} {st st' : Building} {attrs : List (Bytes × Shell)}
    {s t : Bytes} (h : (readAttributes self n st).run channel s = .ok ((attrs,st'),t)) :
    ∃ bs, s = bs ++ t ∧ attrs.length = n ∧ n ≤ maxRCompatibleAttrCount ∧
      Reads st st' (fun cells => AttributesEncode d (resolveAttrs cells attrs) bs)
        fun cells g => attrsQueued cells g attrs := by
  obtain ⟨count,s₁,hcount,hloop⟩ := run_bind_eq_ok.mp h
  obtain ⟨hle,rfl,rfl⟩ := checkedSize_eq_ok hcount
  obtain ⟨bs,hs,hl,hreads⟩ := readAttributeLoop_takes hself hloop
  exact ⟨bs,hs,hl,hle,hreads⟩

theorem readVector_takes {ofSize : Nat → Leaf} {type : Qstype} {what : String}
    {objectLength attrLength : Nat} {st st' : Building} {x : Shell} {header s t : Bytes}
    (hof : ∀ n, (ofSize n).type = type ∧ (ofSize n).size = n)
    (hheader : ObjectHeader type objectLength attrLength header)
    (h : (readVector self ofSize what objectLength attrLength st).run channel s =
      .ok ((x,st'),t)) :
    ∃ bs, s = bs ++ t ∧
      Reads st st' (fun cells => HeadersEncode (d+1) (x.resolve cells) (header ++ bs))
        fun cells g => x.queued cells g := by
  obtain ⟨size,s₁,hsize,h₁⟩ := run_bind_eq_ok.mp h
  obtain ⟨⟨attrs,st₁⟩,s₂,hattrs,hret⟩ := run_bind_eq_ok.mp h₁
  cases hret
  obtain ⟨hle,rfl,rfl⟩ := checkedSize_eq_ok hsize
  obtain ⟨bs,hs,hl,hcount,hgrown,hread⟩ := readAttributes_takes hself hattrs
  refine ⟨bs,hs,?_,fun cells hc => ?_⟩
  · rw [Building.cells_register]
    exact (List.prefix_append _ _).trans hgrown
  · rw [Building.cells_register] at hc
    obtain ⟨hnamed,hgrowth⟩ := hread cells hc
    have hlast : (st.allocate (ofSize size)).cells[st.cells.length]? = some (ofSize size) := by
      simp [Building.allocate]
    obtain ⟨leaf,hcell,ht,hs⟩ := (Agrees.earlier hgrown hc) _ _ hlast
    have hat := cellAt_eq hcell
    rw [(hof size).1] at ht
    rw [(hof size).2] at hs
    refine ⟨?_,?_⟩
    · have hvector : (Shell.vector st.cells.length attrs).resolve cells =
          .vector leaf (resolveAttrs cells attrs) := by
        rw [Shell.resolve,← hat]
        rfl
      have hlen : (resolveAttrs cells attrs).length = attrLength := by
        rw [← length_attrsToValues,length_resolveAttrs,hl]
      rw [hvector]
      refine .vector ?_ (by rw [hs]; exact hle) (by rw [hlen]; exact hcount) hnamed
      rw [ht,hs,hlen]
      exact hheader
    · have hblank : (ofSize size).size = leaf.size ∧ (ofSize size).group = leaf.group :=
        ⟨by rw [(hof size).2,hs],Leaf.group_eq (by rw [(hof size).1,ht])⟩
      have hq := hgrowth.vector hgrown.length_le
      rw [hblank.1,hblank.2,← hat] at hq
      exact hq

end

theorem readInto_takes {d : Nat} {st st' : Building} {x : Shell} {s t : Bytes}
    (h : (readInto d st).run channel s = .ok ((x,st'),t)) : ∃ bs, s = bs ++ t ∧
      Reads st st' (fun cells => HeadersEncode d (x.resolve cells) bs)
        fun cells g => x.queued cells g := by
  induction d generalizing st st' x s t with
  | zero => cases h
  | succ d ih =>
    rw [readInto] at h
    obtain ⟨⟨type,objectLength,attrLength⟩,s₁,hread,h⟩ := run_bind_eq_ok.mp h
    obtain ⟨header,rfl,hheader⟩ := readObjectHeader_takes hread
    have hvector : ∀ (ofSize : Nat → Leaf) {what : String},
        (∀ n, (ofSize n).type = type ∧ (ofSize n).size = n) →
        (readVector (readInto d) ofSize what objectLength attrLength st).run channel s₁ =
          .ok ((x,st'),t) → ∃ bs, header ++ s₁ = bs ++ t ∧
            Reads st st' (fun cells => HeadersEncode (d+1) (x.resolve cells) bs)
              fun cells g => x.queued cells g := by
      intro ofSize what hof hvector
      obtain ⟨bs,rfl,hreads⟩ := readVector_takes ih hof hheader hvector
      exact ⟨header ++ bs,by rw [List.append_assoc],hreads⟩
    cases type with
    | nil =>
      cases h
      exact ⟨header,rfl,List.prefix_refl _,fun cells _ => ⟨.nil hheader,.nothing _⟩⟩
    | «attribute» => cases h
    | list =>
      obtain ⟨⟨attrs,st₁⟩,s₂,hattrs,h₂⟩ := run_bind_eq_ok.mp h
      obtain ⟨size,s₃,hsize,h₃⟩ := run_bind_eq_ok.mp h₂
      obtain ⟨⟨values,st₂⟩,s₄,hvalues,hret⟩ := run_bind_eq_ok.mp h₃
      cases hret
      obtain ⟨hle,rfl,rfl⟩ := checkedSize_eq_ok hsize
      obtain ⟨as,rfl,hla,hcount,hreads⟩ := readAttributes_takes ih hattrs
      obtain ⟨vs,rfl,hlv,hreads'⟩ := readValues_takes ih hvalues
      refine ⟨header ++ as ++ vs,by simp only [List.append_assoc],
        hreads.trans hreads' (fun cells hna hva => ?_) fun _ _ => rfl⟩
      have hlen : (resolveAttrs cells attrs).length = attrLength := by
        rw [← length_attrsToValues,length_resolveAttrs,hla]
      have hsize' : (resolveValues cells values).length = size := by
        rw [← length_objectsToValues,length_resolveValues,hlv]
      refine .list ?_ (by rw [hsize']; exact hle) (by rw [hlen]; exact hcount) hna hva
      rw [hsize',hlen]
      exact hheader
    | character => exact hvector stringOfSize (fun n => ⟨rfl,List.length_replicate⟩) h
    | logical => exact hvector logicalOfSize (fun n => ⟨rfl,List.length_replicate⟩) h
    | integer => exact hvector integerOfSize (fun n => ⟨rfl,List.length_replicate⟩) h
    | real => exact hvector realOfSize (fun n => ⟨rfl,List.length_replicate⟩) h
    | complex => exact hvector complexOfSize (fun n => ⟨rfl,List.length_replicate⟩) h
    | raw => exact hvector rawOfSize (fun n => ⟨rfl,List.length_replicate⟩) h

/-! The payload pass. -/

theorem pack_unpack {α : Type} {put : α → Bytes} {get : Bytes → α} {w : Nat}
    (hg : ∀ bs : Bytes, bs.length = w → put (get bs) = bs) {n : Nat} {bs : Bytes}
    (hl : bs.length = n * w) : pack put (unpack w get n bs) = bs := by
  induction n generalizing bs with
  | zero =>
    rw [Nat.zero_mul] at hl
    rw [List.eq_nil_of_length_eq_zero hl]
    rfl
  | succ n ih =>
    rw [Nat.succ_mul] at hl
    have hfirst : (bs.take w).length = w := List.length_take_of_le (by omega)
    have hrest : (bs.drop w).length = n * w := by
      rw [List.length_drop]
      omega
    rw [unpack,pack_cons,hg _ hfirst,ih hrest,List.take_append_drop]

theorem int32Bytes_of {bs : Bytes} (h : bs.length = 4) : int32Bytes (int32OfBytes bs) = bs := by
  have hlt := toNat_lt bs
  rw [h] at hlt
  have hword : (UInt32.ofNat (toNat bs)).toNat = toNat bs := by
    rw [UInt32.toNat_ofNat']
    exact Nat.mod_eq_of_lt hlt
  have hsame := toBytes_toNat bs
  rw [h] at hsame
  simp only [int32Bytes,int32OfBytes,UInt32.toUInt32_toInt32,hword,hsame]

theorem doubleBytes_of {bs : Bytes} (h : bs.length = 8) :
    doubleBytes (doubleOfBytes bs) = bs := by
  have hlt := toNat_lt bs
  rw [h] at hlt
  have hword : (UInt64.ofNat (toNat bs)).toNat = toNat bs := by
    rw [UInt64.toNat_ofNat']
    exact Nat.mod_eq_of_lt hlt
  have hsame := toBytes_toNat bs
  rw [h] at hsame
  rw [doubleBytes,doubleOfBytes,hword,hsame]

theorem complexBytes_of {bs : Bytes} (h : bs.length = 16) :
    complexBytes (complexOfBytes bs) = bs := by
  rw [complexBytes,complexOfBytes,doubleBytes_of (by rw [List.length_take,h]; rfl),
    doubleBytes_of (by rw [List.length_drop,h]),List.take_append_drop]

theorem byteBytes_of {bs : Bytes} (h : bs.length = 1) : byteBytes (byteOfBytes bs) = bs := by
  obtain ⟨b,rfl⟩ := List.length_eq_one_iff.mp h
  rfl

theorem Leaf.bytes_fill {leaf : Leaf} {bs : Bytes} (hg : leaf.group ≠ .string)
    (hl : bs.length = leaf.byteSize) : (leaf.fill bs).bytes = bs := by
  cases leaf with
  | logical xs => exact pack_unpack (fun _ => int32Bytes_of) hl
  | integer xs => exact pack_unpack (fun _ => int32Bytes_of) hl
  | real xs => exact pack_unpack (fun _ => doubleBytes_of) hl
  | complex xs => exact pack_unpack (fun _ => complexBytes_of) hl
  | string xs => exact absurd rfl hg
  | raw xs => exact pack_unpack (fun _ => byteBytes_of) (by rw [Nat.mul_one]; exact hl)

theorem Leaf.fill_shape (leaf : Leaf) (bs : Bytes) :
    (leaf.fill bs).type = leaf.type ∧ (leaf.fill bs).size = leaf.size := by
  cases leaf <;> simp [Leaf.fill,Leaf.type,Leaf.size]

inductive Fills : List Nat → List Leaf → List Leaf → Bytes → Prop
  | nil (cells : List Leaf) : Fills [] cells cells []
  | cons {a : Nat} {rest : List Nat} {cells cells' : List Leaf} {old leaf : Leaf} {bs ws : Bytes}
      (there : cells[a]? = some old) (type : leaf.type = old.type) (size : leaf.size = old.size)
      (encodes : LeafEncodes leaf bs) (more : Fills rest (cells.set a leaf) cells' ws) :
      Fills (a :: rest) cells cells' (bs ++ ws)

theorem Fills.agrees {addresses : List Nat} {cells cells' : List Leaf} {bs : Bytes}
    (h : Fills addresses cells cells' bs) : Agrees cells cells' := by
  induction h with
  | nil => exact .refl _
  | cons there type size _ _ ih => exact (Agrees.set there type size).trans ih

theorem Fills.append {as as' : List Nat} {cells cells' cells'' : List Leaf} {bs bs' : Bytes}
    (h : Fills as cells cells' bs) (h' : Fills as' cells' cells'' bs') :
    Fills (as ++ as') cells cells'' (bs ++ bs') := by
  induction h with
  | nil => exact h'
  | cons there type size encodes _ ih =>
    rw [List.cons_append,List.append_assoc]
    exact .cons there type size encodes (ih h')

theorem Fills.frame {addresses : List Nat} {cells cells' : List Leaf} {bs : Bytes}
    (h : Fills addresses cells cells' bs) {a : Nat} (ha : a ∉ addresses) :
    cellAt cells' a = cellAt cells a := by
  induction h with
  | nil => rfl
  | cons _ _ _ _ _ ih =>
    rw [List.mem_cons,not_or] at ha
    rw [ih ha.2,cellAt,cellAt,List.getD_eq_getElem?_getD,List.getD_eq_getElem?_getD,
      List.getElem?_set_ne (Ne.symm ha.1)]

theorem Fills.each {addresses : List Nat} {cells cells' : List Leaf} {bs : Bytes}
    (h : Fills addresses cells cells' bs) (hn : addresses.Nodup) :
    Each LeafEncodes (addresses.map (cellAt cells')) bs := by
  induction h with
  | nil => exact .nil
  | @cons a rest cells cells' old leaf bs ws there type size encodes more ih =>
    obtain ⟨ha,hn⟩ := List.nodup_cons.mp hn
    have hset : cellAt (cells.set a leaf) a = leaf :=
      cellAt_eq (List.getElem?_set_self (List.getElem?_eq_some_iff.mp there).1)
    rw [List.map_cons,more.frame ha,hset]
    exact .cons encodes (ih hn)

def QueueOf (g : Group) (addresses : List Nat) (cells : List Leaf) : Prop :=
  ∀ a ∈ addresses, ∃ leaf, cells[a]? = some leaf ∧ leaf.group = g

theorem QueueOf.agrees {g : Group} {addresses : List Nat} {cells cells' : List Leaf}
    (h : QueueOf g addresses cells) (hc : Agrees cells cells') : QueueOf g addresses cells' := by
  intro a ha
  obtain ⟨leaf,hl,hg⟩ := h a ha
  obtain ⟨leaf',hl',ht,_⟩ := hc a leaf hl
  exact ⟨leaf',hl',(Leaf.group_eq ht).trans hg⟩

theorem readStringRecord_takes {r : Option Bytes} {s t : Bytes}
    (h : readStringRecord.run channel s = .ok (r,t)) :
    ∃ bs, s = bs ++ t ∧ RecordEncodes r bs := by
  cases r with
  | none =>
    rcases readStringHeader_eq_ok.mp (readStringRecord_none.mp h) with ⟨header,he,rfl⟩ | ⟨_,rfl⟩
    · exact ⟨header,rfl,headerEncodes_na.mp he ▸ .disguised⟩
    · exact ⟨[stringHeaderNA],rfl,.na⟩
  | some x =>
    obtain ⟨header,he,hfits,rfl⟩ := header_text.mp (readStringRecord_some.mp h)
    exact ⟨header ++ x,rfl,.text (.text he hfits)⟩

theorem readStringPayloads_takes {n : Nat} {records : List (Option Bytes)} {s t : Bytes}
    (h : (readStringPayloads n).run channel s = .ok (records,t)) :
    ∃ bs, s = bs ++ t ∧ records.length = n ∧ Each RecordEncodes records bs := by
  induction n generalizing records s with
  | zero =>
    cases h
    exact ⟨[],rfl,rfl,.nil⟩
  | succ n ih =>
    rw [readStringPayloads_succ] at h
    obtain ⟨r,s₁,hr,h₁⟩ := run_bind_eq_ok.mp h
    obtain ⟨rest,s₂,hrest,hret⟩ := run_bind_eq_ok.mp h₁
    cases hret
    obtain ⟨bs,rfl,he⟩ := readStringRecord_takes hr
    obtain ⟨ws,rfl,hl,hes⟩ := ih hrest
    exact ⟨bs ++ ws,by rw [List.append_assoc],by rw [List.length_cons,hl],.cons he hes⟩

theorem readStringGroup_takes {addresses : List Nat} {cells cells' : List Leaf} {s t : Bytes}
    (hq : QueueOf .string addresses cells)
    (h : (readStringGroup addresses cells).run channel s = .ok (cells',t)) :
    ∃ bs, s = bs ++ t ∧ Fills addresses cells cells' bs := by
  induction addresses generalizing cells s with
  | nil =>
    cases h
    exact ⟨[],rfl,.nil _⟩
  | cons a rest ih =>
    obtain ⟨leaf,hl,hg⟩ := hq a List.mem_cons_self
    obtain ⟨records,s₁,hrecords,h₁⟩ := run_bind_eq_ok.mp h
    obtain ⟨bs,rfl,hlen,he⟩ := readStringPayloads_takes hrecords
    obtain ⟨olds,rfl⟩ := string_of_group hg
    have hsize : (Leaf.string records).size = (Leaf.string olds).size := by
      rw [← cellAt_eq hl]
      exact hlen
    have hrest : QueueOf .string rest cells := fun b hb => hq b (List.mem_cons_of_mem _ hb)
    have htype : (Leaf.string records).type = (Leaf.string olds).type := rfl
    obtain ⟨ws,rfl,hfills⟩ := ih (hrest.agrees (.set hl htype hsize)) h₁
    exact ⟨bs ++ ws,by rw [List.append_assoc],.cons hl htype hsize (.string he) hfills⟩

theorem readArrayGroup_takes {g : Group} (hg : g ≠ .string) {addresses : List Nat}
    {cells cells' : List Leaf} {s t : Bytes} (hq : QueueOf g addresses cells)
    (h : (readArrayGroup addresses cells).run channel s = .ok (cells',t)) :
    ∃ bs, s = bs ++ t ∧ Fills addresses cells cells' bs := by
  induction addresses generalizing cells s with
  | nil =>
    cases h
    exact ⟨[],rfl,.nil _⟩
  | cons a rest ih =>
    obtain ⟨leaf,hl,hk⟩ := hq a List.mem_cons_self
    obtain ⟨bs,s₁,hbs,h₁⟩ := run_bind_eq_ok.mp h
    obtain ⟨hlen,rfl⟩ := getData_eq_ok.mp hbs
    change bs.length = (cellAt cells a).byteSize at hlen
    change (readArrayGroup rest (cells.set a ((cellAt cells a).fill bs))).run channel s₁ = _ at h₁
    rw [cellAt_eq hl] at hlen h₁
    obtain ⟨ht,hs⟩ := leaf.fill_shape bs
    have hne : leaf.group ≠ .string := by rw [hk]; exact hg
    have he : LeafEncodes (leaf.fill bs) bs := by
      have harray : LeafEncodes (leaf.fill bs) (leaf.fill bs).bytes :=
        .array (by rw [Leaf.group_eq ht]; exact hne)
      rwa [Leaf.bytes_fill hne hlen] at harray
    have hrest : QueueOf g rest cells := fun b hb => hq b (List.mem_cons_of_mem _ hb)
    obtain ⟨ws,rfl,hfills⟩ := ih (hrest.agrees (.set hl ht hs)) h₁
    exact ⟨bs ++ ws,by rw [List.append_assoc],.cons hl ht hs he hfills⟩

theorem readObjectData_takes {st : Building} {cells : List Leaf} {s t : Bytes}
    (hq : ∀ g, QueueOf g (st.queue g) st.cells) (hn : ∀ g, (st.queue g).Nodup)
    (h : (readObjectData st).run channel s = .ok (cells,t)) :
    ∃ b₁ b₂ b₃ b₄ b₅, s = b₁ ++ (b₂ ++ (b₃ ++ (b₄ ++ b₅))) ++ t ∧ Agrees st.cells cells ∧
      Each LeafEncodes ((st.queue .string).map (cellAt cells)) b₁ ∧
      Each LeafEncodes ((st.queue .complex).map (cellAt cells)) b₂ ∧
      Each LeafEncodes ((st.queue .real).map (cellAt cells)) b₃ ∧
      Each LeafEncodes ((st.queue .integer).map (cellAt cells)) b₄ ∧
      Each LeafEncodes ((st.queue .raw).map (cellAt cells)) b₅ := by
  obtain ⟨c₁,s₁,h₁,k₁⟩ := run_bind_eq_ok.mp h
  obtain ⟨c₂,s₂,h₂,k₂⟩ := run_bind_eq_ok.mp k₁
  obtain ⟨c₃,s₃,h₃,k₃⟩ := run_bind_eq_ok.mp k₂
  obtain ⟨c₄,s₄,h₄,h₅⟩ := run_bind_eq_ok.mp k₃
  obtain ⟨b₁,rfl,f₁⟩ := readStringGroup_takes (hq .string) h₁
  have a₁ := f₁.agrees
  obtain ⟨b₂,rfl,f₂⟩ := readArrayGroup_takes (by decide) ((hq .complex).agrees a₁) h₂
  have a₂ := a₁.trans f₂.agrees
  obtain ⟨b₃,rfl,f₃⟩ := readArrayGroup_takes (by decide) ((hq .real).agrees a₂) h₃
  have a₃ := a₂.trans f₃.agrees
  obtain ⟨b₄,rfl,f₄⟩ := readArrayGroup_takes (by decide) ((hq .integer).agrees a₃) h₄
  have a₄ := a₃.trans f₄.agrees
  obtain ⟨b₅,rfl,f₅⟩ := readArrayGroup_takes (by decide) ((hq .raw).agrees a₄) h₅
  have f₄₅ := f₄.append f₅
  have f₃₅ := f₃.append f₄₅
  have f₂₅ := f₂.append f₃₅
  -- a vector of one group is in no queue of another
  have hother : ∀ {g g' : Group} {a : Nat}, g ≠ g' → a ∈ st.queue g → a ∉ st.queue g' := by
    intro g g' a hne ha ha'
    obtain ⟨leaf,hl,hg⟩ := hq g a ha
    obtain ⟨leaf',hl',hg'⟩ := hq g' a ha'
    rw [hl] at hl'
    cases hl'
    exact hne (hg.symm.trans hg')
  have hkeep : ∀ {g : Group} {c : List Leaf} {later : List Nat} {b bs : Bytes}
      {c' : List Leaf}, Fills (st.queue g) c c' b → Fills later c' cells bs →
      (∀ a ∈ st.queue g, a ∉ later) → Each LeafEncodes ((st.queue g).map (cellAt cells)) b := by
    intro g c later b bs c' hf hlater hdisjoint
    have hsame : (st.queue g).map (cellAt cells) = (st.queue g).map (cellAt c') :=
      List.map_congr_left fun a ha => hlater.frame (hdisjoint a ha)
    rw [hsame]
    exact hf.each (hn g)
  refine ⟨b₁,b₂,b₃,b₄,b₅,by simp only [List.append_assoc],a₄.trans f₅.agrees,
    hkeep f₁ f₂₅ fun a ha => ?_,hkeep f₂ f₃₅ fun a ha => ?_,hkeep f₃ f₄₅ fun a ha => ?_,
    hkeep f₄ f₅ fun a ha => hother (by decide) ha,f₅.each (hn .raw)⟩
  · simp only [List.mem_append,not_or]
    exact ⟨hother (by decide) ha,hother (by decide) ha,hother (by decide) ha,
      hother (by decide) ha⟩
  · simp only [List.mem_append,not_or]
    exact ⟨hother (by decide) ha,hother (by decide) ha,hother (by decide) ha⟩
  · simp only [List.mem_append,not_or]
    exact ⟨hother (by decide) ha,hother (by decide) ha⟩

/-- What is accepted is an encoding of the object that is returned. -/
theorem streamRead_takes {d : Nat} {o : Object} {b rest : Bytes}
    (h : (streamRead d).run channel b = .ok (o,rest)) : ∃ bs, b = bs ++ rest ∧ Encodes d o bs := by
  unfold streamRead at h
  split at h
  · cases h
  obtain ⟨⟨x,st⟩,s₁,hobject,h₁⟩ := run_bind_eq_ok.mp h
  obtain ⟨cells,s₂,hdata,hret⟩ := run_bind_eq_ok.mp h₁
  cases hret
  obtain ⟨headers,rfl,_,hread⟩ := readInto_takes hobject
  obtain ⟨_,hgrowth⟩ := hread st.cells (.refl _)
  have hqueue : ∀ g, st.queue g = x.queued st.cells g := fun g => by
    rw [hgrowth.queue g,Building.queue_empty,List.nil_append]
  have hq : ∀ g, QueueOf g (st.queue g) st.cells := by
    intro g a ha
    rw [hqueue] at ha
    have hlt := (hgrowth.fresh g a ha).2
    have hg := queued_group st.cells g x a ha
    rw [cellAt_eq (List.getElem?_eq_getElem hlt)] at hg
    exact ⟨_,List.getElem?_eq_getElem hlt,hg⟩
  have hn : ∀ g, (st.queue g).Nodup := fun g => by
    rw [hqueue]
    exact hgrowth.once g
  obtain ⟨b₁,b₂,b₃,b₄,b₅,rfl,hagrees,e₁,e₂,e₃,e₄,e₅⟩ := readObjectData_takes hq hn hdata
  obtain ⟨hheaders,hgrowth'⟩ := hread cells hagrees
  have hpayloads : ∀ g, (st.queue g).map (cellAt cells) = (x.resolve cells).payloads g := by
    intro g
    rw [resolve_payloads,hgrowth'.queue g,Building.queue_empty,List.nil_append]
  rw [hpayloads] at e₁ e₂ e₃ e₄ e₅
  exact ⟨_,by simp only [List.append_assoc],.object hheaders e₁ e₂ e₃ e₄ e₅⟩

/-- The deserializer accepts exactly the format: within `d` scopes it makes an object of the
bytes in front if and only if they are one of the object's encodings. -/
theorem accepts_format {d : Nat} {o : Object} {b rest : Bytes} :
    (streamRead d).run channel b = .ok (o,rest) ↔ ∃ bs, b = bs ++ rest ∧ Encodes d o bs := by
  constructor
  · exact streamRead_takes
  · rintro ⟨bs,rfl,h⟩
    exact h.reads rest

end QData
