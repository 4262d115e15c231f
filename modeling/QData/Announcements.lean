import Mathlib.Data.List.GetD
import QData.Allocation
import QData.BlockPlaces
import QData.FormatGrammar
/-! The lengths and counts that blocks announce, in the order of the format, and that these are
what the deserializer makes room for. -/
set_option autoImplicit false

namespace QData
open Words Requests Boundaries

/-- A part of the format that is still to come: an object within `d` scopes, so many attributes
or elements of one, the bytes of a text, room for what was announced, the payload of a vector,
so many records of a string vector. -/
inductive Part where
  | object (d : Nat)
  | attributes (d count : Nat)
  | elements (d count : Nat)
  | text (length : Nat)
  | room (c : Claim)
  | payload (type : Qstype) (length : Nat)
  | records (count : Nat)

/-- What the bytes ahead of a place announce, some of it or all, as long as they are in the
format and its parts lie as the block boundaries allow. The lengths of the string vectors whose
records are to come wait in a queue. Nothing is announced behind the string records. -/
inductive Announces (boundary : Nat → Prop) :
    List Part → List Nat → Nat → Bytes → List Claim → Prop
  | nothing {todo : List Part} {queue : List Nat} {x : Nat} {s : Bytes} :
      Announces boundary todo queue x s []
  | room {c : Claim} {todo : List Part} {queue : List Nat} {x : Nat} {s : Bytes}
      {cs : List Claim} (more : Announces boundary todo queue x s cs) :
      Announces boundary (.room c :: todo) queue x s (c :: cs)
  | nil {d n k : Nat} {hs : Bytes} {todo : List Part} {queue : List Nat} {x : Nat} {s : Bytes}
      {cs : List Claim} (header : ObjectHeader .nil n k hs)
      (whole : FitsAt boundary x (.pod hs.length))
      (more : Announces boundary todo queue (x+hs.length) s cs) :
      Announces boundary (.object (d+1) :: todo) queue x (hs ++ s) cs
  | vector {d n k : Nat} {type : Qstype} {hs : Bytes} {todo : List Part} {queue : List Nat}
      {x : Nat} {s : Bytes} {cs : List Claim} (header : ObjectHeader type n k hs)
      (some : type ≠ .nil) (leaf : type ≠ .list) (whole : FitsAt boundary x (.pod hs.length))
      (more : Announces boundary (.room (.vector type n) :: .room (.attributes k) ::
        .attributes d k :: .payload type n :: todo) queue (x+hs.length) s cs) :
      Announces boundary (.object (d+1) :: todo) queue x (hs ++ s) cs
  | list {d n k : Nat} {hs : Bytes} {todo : List Part} {queue : List Nat}
      {x : Nat} {s : Bytes} {cs : List Claim} (header : ObjectHeader .list n k hs)
      (whole : FitsAt boundary x (.pod hs.length))
      (more : Announces boundary (.room (.attributes k) :: .attributes d k ::
        .room (.list n) :: .elements d n :: todo) queue (x+hs.length) s cs) :
      Announces boundary (.object (d+1) :: todo) queue x (hs ++ s) cs
  | noAttribute {d : Nat} {todo : List Part} {queue : List Nat} {x : Nat} {s : Bytes}
      {cs : List Claim} (more : Announces boundary todo queue x s cs) :
      Announces boundary (.attributes d 0 :: todo) queue x s cs
  | named {d k n : Nat} {hs : Bytes} {todo : List Part} {queue : List Nat} {x : Nat}
      {s : Bytes} {cs : List Claim} (name : HeaderEncodes n hs) (known : n ≠ naStringLength)
      (whole : FitsAt boundary x (.pod hs.length))
      (more : Announces boundary (.room (.name n) :: .text n :: .room .namedObject ::
        .object d :: .attributes d k :: todo) queue (x+hs.length) s cs) :
      Announces boundary (.attributes d (k+1) :: todo) queue x (hs ++ s) cs
  | noElement {d : Nat} {todo : List Part} {queue : List Nat} {x : Nat} {s : Bytes}
      {cs : List Claim} (more : Announces boundary todo queue x s cs) :
      Announces boundary (.elements d 0 :: todo) queue x s cs
  | element {d k : Nat} {todo : List Part} {queue : List Nat} {x : Nat} {s : Bytes}
      {cs : List Claim} (more : Announces boundary (.room .element :: .object d ::
        .elements d k :: todo) queue x s cs) :
      Announces boundary (.elements d (k+1) :: todo) queue x s cs
  | text {bs : Bytes} {todo : List Part} {queue : List Nat} {x : Nat} {s : Bytes}
      {cs : List Claim} (apart : FitsAt boundary x (.data bs.length))
      (more : Announces boundary todo queue (x+bs.length) s cs) :
      Announces boundary (.text bs.length :: todo) queue x (bs ++ s) cs
  | noPayload {type : Qstype} {todo : List Part} {queue : List Nat} {x : Nat} {s : Bytes}
      {cs : List Claim} (more : Announces boundary todo queue x s cs) :
      Announces boundary (.payload type 0 :: todo) queue x s cs
  | payload {type : Qstype} {n : Nat} {todo : List Part} {queue : List Nat} {x : Nat}
      {s : Bytes} {cs : List Claim} (filled : 0 < n)
      (more : Announces boundary (.room (.queued type) :: todo)
        (queue ++ if type = .character then [n] else []) x s cs) :
      Announces boundary (.payload type n :: todo) queue x s cs
  | strings {n : Nat} {queue : List Nat} {x : Nat} {s : Bytes} {cs : List Claim}
      (more : Announces boundary [.room .storage,.records n,.room .slab] queue x s cs) :
      Announces boundary [] (n :: queue) x s cs
  | noRecord {todo : List Part} {queue : List Nat} {x : Nat} {s : Bytes}
      {cs : List Claim} (more : Announces boundary todo queue x s cs) :
      Announces boundary (.records 0 :: todo) queue x s cs
  | na {k : Nat} {hs : Bytes} {todo : List Part} {queue : List Nat} {x : Nat} {s : Bytes}
      {cs : List Claim} (record : RecordEncodes none hs)
      (whole : FitsAt boundary x (.pod hs.length))
      (more : Announces boundary (.records k :: todo) queue (x+hs.length) s cs) :
      Announces boundary (.records (k+1) :: todo) queue x (hs ++ s) cs
  | empty {k : Nat} {hs : Bytes} {todo : List Part} {queue : List Nat} {x : Nat} {s : Bytes}
      {cs : List Claim} (record : HeaderEncodes 0 hs)
      (whole : FitsAt boundary x (.pod hs.length))
      (more : Announces boundary (.records k :: todo) queue (x+hs.length) s cs) :
      Announces boundary (.records (k+1) :: todo) queue x (hs ++ s) cs
  | string {k n : Nat} {hs : Bytes} {todo : List Part} {queue : List Nat} {x : Nat}
      {s : Bytes} {cs : List Claim} (record : HeaderEncodes n hs) (filled : 0 < n)
      (known : n ≠ naStringLength) (whole : FitsAt boundary x (.pod hs.length))
      (more : Announces boundary (.room (.string n) :: .text n ::
        ((if n > defaultStringStorageBytes then [.room .slab] else []) ++
          .records k :: todo)) queue (x+hs.length) s cs) :
      Announces boundary (.records (k+1) :: todo) queue x (hs ++ s) cs

/-! A header is one stretch of bytes: a pod, and pods contiguous with it. -/

section
variable {boundary : Nat → Prop} {α β : Type}

def GetOp.behind (x : Nat) (op : GetOp) : Nat := x+op.size

/-- The claims a program makes on the bytes ahead of a place. -/
abbrev MakesAt (boundary : Nat → Prop) (p : ClaimingReader α) (x : Nat) (s : Bytes)
    (cs : List Claim) : Prop :=
  p.Makes (FitsAt boundary) GetOp.behind channel x s cs

def GetOp.Contiguous (op : GetOp) : Prop := ∃ n, op = .podContiguous n

theorem contiguous_joins {x n m : Nat} :
    FitsAt boundary x (.podContiguous n) ∧ FitsAt boundary (x+n) (.podContiguous m) ↔
      FitsAt boundary x (.podContiguous (n+m)) := by
  constructor
  · rintro ⟨h₁,h₂⟩ y hy hx
    have hfirst := h₁ y hy hx
    have hsecond := h₂ y hy hfirst
    omega
  · intro h
    refine ⟨fun y hy hx => ?_,fun y hy hx => ?_⟩
    · have := h y hy hx
      omega
    · have := h y hy (by omega)
      omega

theorem pod_joins {x n m : Nat} (hn : 0 < n) :
    FitsAt boundary x (.pod n) ∧ FitsAt boundary (x+n) (.podContiguous m) ↔
      FitsAt boundary x (.pod (n+m)) := by
  constructor
  · rintro ⟨h₁,h₂⟩ y hy hx
    have hfirst := h₁ y hy hx
    have hsecond := h₂ y hy hfirst
    omega
  · intro h
    refine ⟨fun y hy hx => ?_,fun y hy hx => ?_⟩
    · have := h y hy hx
      omega
    · have := h y hy (by omega)
      omega

variable (boundary) in
theorem contiguous_fits {p : Reader α} (hp : p.Asks GetOp.Contiguous) {s t : Bytes} {a : α}
    (hr : p.run channel s = .ok (a,t)) (x : Nat) :
    ∃ bs, s = bs ++ t ∧ (p.asked channel s).foldl GetOp.behind x = x+bs.length ∧
      (AllFit (FitsAt boundary) GetOp.behind x (p.asked channel s) ↔
        FitsAt boundary x (.podContiguous bs.length)) := by
  induction p generalizing s x with
  | ret a' =>
    cases hr
    refine ⟨[],rfl,rfl,?_⟩
    simp only [Prog.asked,AllFit,FitsAt,List.length_nil]
    exact ⟨fun _ y _ hy => hy,fun _ => trivial⟩
  | fail e => cases hr
  | ask op k ih =>
    obtain ⟨⟨n,rfl⟩,hk⟩ := hp
    simp only [Prog.run] at hr
    cases hi : channel (.podContiguous n) s with
    | error e => simp [hi] at hr
    | ok r =>
      obtain ⟨bs,s'⟩ := r
      simp only [hi] at hr
      obtain ⟨hlen,rfl⟩ := channel_eq_ok.mp hi
      obtain ⟨more,rfl,hplace,hfits⟩ := ih bs (hk bs) hr (x+n)
      have hsize : bs.length = n := hlen
      rw [asked_ok hi]
      refine ⟨bs ++ more,by rw [List.append_assoc],?_,?_⟩
      · rw [List.length_append,hsize,← Nat.add_assoc]
        exact hplace
      · rw [List.length_append,hsize]
        exact (and_congr_right fun _ => hfits).trans contiguous_joins

def ReadsWhole (q : Reader α) : Prop :=
  ∃ n k, 0 < n ∧ q = .ask (.pod n) k ∧ ∀ r, (k r).Asks GetOp.Contiguous

theorem ReadsWhole.makes {q : Reader α} (hq : ReadsWhole q) {f : α → ClaimingReader β} {x : Nat}
    {s : Bytes} {c : Claim} {cs : List Claim} :
    MakesAt boundary (q.claimless >>= f) x s (c :: cs) ↔
      ∃ a hs t, s = hs ++ t ∧ q.run channel s = .ok (a,t) ∧
        FitsAt boundary x (.pod hs.length) ∧
          MakesAt boundary (f a) (x+hs.length) t (c :: cs) := by
  obtain ⟨n,k,hn,rfl,hk⟩ := hq
  -- where it returns, it has taken one piece
  have hone : ∀ {a t}, (Prog.ask (.pod n) k : Reader α).run channel s = .ok (a,t) →
      ∃ hs, s = hs ++ t ∧
        ((Prog.ask (.pod n) k : Reader α).asked channel s).foldl GetOp.behind x =
          x+hs.length ∧
        (AllFit (FitsAt boundary) GetOp.behind x ((Prog.ask (.pod n) k).asked channel s) ↔
          FitsAt boundary x (.pod hs.length)) := by
    intro a t hr
    simp only [Prog.run] at hr
    cases hi : channel (.pod n) s with
    | error e => simp [hi] at hr
    | ok r =>
      obtain ⟨bs,s'⟩ := r
      simp only [hi] at hr
      obtain ⟨hlen,rfl⟩ := channel_eq_ok.mp hi
      obtain ⟨more,rfl,hplace,hfits⟩ := contiguous_fits boundary (hk bs) hr (x+n)
      have hsize : bs.length = n := hlen
      rw [asked_ok hi]
      refine ⟨bs ++ more,by rw [List.append_assoc],?_,?_⟩
      · rw [List.length_append,hsize,← Nat.add_assoc]
        exact hplace
      · rw [List.length_append,hsize]
        exact (and_congr_right fun _ => hfits).trans (pod_joins hn)
  refine makes_claimless.trans ⟨?_,?_⟩
  · rintro ⟨a,t,hr,hall,hm⟩
    obtain ⟨hs,hsplit,hplace,hfits⟩ := hone hr
    rw [hplace] at hm
    exact ⟨a,hs,t,hsplit,hr,hfits.mp hall,hm⟩
  · rintro ⟨a,hs,t,hsplit,hr,hfit,hm⟩
    obtain ⟨hs',hsplit',hplace,hfits⟩ := hone hr
    have hsame : hs' = hs := List.append_cancel_right (hsplit'.symm.trans hsplit)
    subst hsame
    exact ⟨a,t,hr,hfits.mpr hfit,by rw [hplace]; exact hm⟩

theorem readObjectHeader_whole : ReadsWhole readObjectHeader := by
  refine ⟨1,_,Nat.one_pos,rfl,fun bs => ?_⟩
  have hdecode : ∀ b len, (decodeObjectHeader b len).Asks GetOp.Contiguous := by
    exact fun b len => decodeObjectHeader_asks (fun n _ _ => ⟨n,rfl⟩) b len
  refine (hdecode _ _).bind fun y => ?_
  obtain ⟨type,objectLength⟩ := y
  simp only
  split
  · refine Prog.Asks.bind ⟨⟨1,rfl⟩,fun _ => trivial⟩ fun b => (hdecode _ _).bind fun z => ?_
    split <;> trivial
  · trivial

theorem readStringHeader_whole : ReadsWhole readStringHeader := by
  refine ⟨1,_,Nat.one_pos,rfl,fun bs => ?_⟩
  change (if toNat bs = stringHeader16.toNat then getPodContiguous 2
    else if toNat bs = stringHeader32.toNat then getPodContiguous 4
    else if toNat bs = stringHeaderNA.toNat then pure naStringLength
    else pure (toNat bs) : Reader Nat).Asks GetOp.Contiguous
  split
  · exact Prog.Asks.bind ⟨⟨2,rfl⟩,fun _ => trivial⟩ fun _ => trivial
  · split
    · exact Prog.Asks.bind ⟨⟨4,rfl⟩,fun _ => trivial⟩ fun _ => trivial
    · split <;> trivial

/-! The parts to come tell what a program claims. -/

def Foretells (boundary : Nat → Prop) (todo : List Part) (queue : List Nat)
    (p : ClaimingReader α) : Prop :=
  ∀ x s cs, MakesAt boundary p x s cs ↔ Announces boundary todo queue x s cs

namespace Foretells

variable {todo : List Part} {queue : List Nat}

theorem of_cons {p : ClaimingReader α} (h : ∀ x s c cs,
    MakesAt boundary p x s (c :: cs) ↔ Announces boundary todo queue x s (c :: cs)) :
    Foretells boundary todo queue p := by
  intro x s cs
  cases cs with
  | nil => exact ⟨fun _ => .nothing,fun _ => makes_nil ..⟩
  | cons c cs => exact h x s c cs

theorem room {c : Claim} {f : Unit → ClaimingReader α}
    (h : Foretells boundary todo queue (f ())) :
    Foretells boundary (.room c :: todo) queue (claim c >>= f) := by
  refine of_cons fun x s c' cs => makes_claim.trans ⟨?_,?_⟩
  · rintro ⟨rfl,hm⟩
    exact .room ((h x s cs).mp hm)
  · rintro (_ | more)
    exact ⟨rfl,(h x s cs).mpr more⟩

theorem text {n : Nat} {f : Bytes → ClaimingReader α}
    (h : ∀ bs, bs.length = n → Foretells boundary todo queue (f bs)) :
    Foretells boundary (.text n :: todo) queue ((getData n).claimless >>= f) := by
  refine of_cons fun x s c cs => ?_
  have hmakes : MakesAt boundary ((getData n).claimless >>= f) x s (c :: cs) ↔
      FitsAt boundary x (.data n) ∧ ∃ bs t, channel (.data n) s = .ok (bs,t) ∧
        MakesAt boundary (f bs) (x+n) t (c :: cs) := Iff.rfl
  rw [hmakes]
  constructor
  · rintro ⟨hfits,bs,t,hi,hm⟩
    obtain ⟨hlen,rfl⟩ := channel_eq_ok.mp hi
    have hlen : bs.length = n := hlen
    subst hlen
    exact .text hfits ((h bs rfl _ _ _).mp hm)
  · intro ha
    cases ha with
    | @text bs _ _ _ t _ apart more =>
      exact ⟨apart,bs,t,channel_eq_ok.mpr ⟨rfl,rfl⟩,(h bs rfl _ _ _).mpr more⟩

theorem noText {p : ClaimingReader α} (h : Foretells boundary todo queue p) :
    Foretells boundary (.text 0 :: todo) queue p := by
  have hfits : ∀ x, FitsAt boundary x (.data 0) := fun x =>
    ⟨fun y z _ _ _ _ _ => by omega,fun y _ _ _ => by omega⟩
  refine of_cons fun x s c cs => (h x s (c :: cs)).trans ⟨fun more => ?_,fun ha => ?_⟩
  · exact @Announces.text _ [] _ _ _ _ _ (hfits x) more
  · generalize hn : Part.text 0 :: todo = parts at ha
    cases ha with
    | @text bs _ _ _ t _ apart more =>
      obtain ⟨hlen,rfl⟩ := List.cons.inj hn
      obtain rfl := List.eq_nil_of_length_eq_zero (Part.text.inj hlen).symm
      exact more
    | _ => cases hn

theorem name {d k : Nat} {f : Nat → ClaimingReader α}
    (hna : ∀ x s c cs, ¬ MakesAt boundary (f naStringLength) x s (c :: cs))
    (h : ∀ n, n ≠ naStringLength → Foretells boundary (.room (.name n) :: .text n ::
      .room .namedObject :: .object d :: .attributes d k :: todo) queue (f n)) :
    Foretells boundary (.attributes d (k+1) :: todo) queue
      (readStringHeader.claimless >>= f) := by
  refine of_cons fun x s c cs => readStringHeader_whole.makes.trans ⟨?_,?_⟩
  · rintro ⟨n,hs,t,rfl,hr,whole,hm⟩
    have hn : n ≠ naStringLength := by
      rintro rfl
      exact hna _ _ _ _ hm
    rcases readStringHeader_eq_ok.mp hr with ⟨header,he,hsplit⟩ | ⟨hna',_⟩
    · obtain rfl := List.append_cancel_right hsplit
      exact .named he hn whole ((h n hn _ _ _).mp hm)
    · exact absurd hna' hn
  · intro ha
    cases ha with
    | @named _ _ n hs _ _ _ t _ name known whole more =>
      exact ⟨n,hs,t,rfl,readStringHeader_eq_ok.mpr (.inl ⟨hs,name,rfl⟩),whole,
        (h n known _ _ _).mpr more⟩

theorem record {k : Nat} {f : Nat → ClaimingReader α}
    (hna : Foretells boundary (.records k :: todo) queue (f naStringLength))
    (hzero : Foretells boundary (.records k :: todo) queue (f 0))
    (h : ∀ n, 0 < n → n ≠ naStringLength → Foretells boundary (.room (.string n) :: .text n ::
      ((if n > defaultStringStorageBytes then [.room .slab] else []) ++ .records k :: todo))
        queue (f n)) :
    Foretells boundary (.records (k+1) :: todo) queue (readStringHeader.claimless >>= f) := by
  refine of_cons fun x s c cs => readStringHeader_whole.makes.trans ⟨?_,?_⟩
  · rintro ⟨n,hs,t,rfl,hr,whole,hm⟩
    rcases readStringHeader_eq_ok.mp hr with ⟨header,he,hsplit⟩ | ⟨rfl,hsplit⟩
    · obtain rfl := List.append_cancel_right hsplit
      by_cases hn : n = naStringLength
      · subst hn
        exact .na (headerEncodes_na.mp he ▸ .disguised) whole ((hna _ _ _).mp hm)
      by_cases hz : n = 0
      · subst hz
        exact .empty he whole ((hzero _ _ _).mp hm)
      · have hpos := Nat.pos_of_ne_zero hz
        exact .string he hpos hn whole ((h n hpos hn _ _ _).mp hm)
    · obtain rfl : hs = [stringHeaderNA] := List.append_cancel_right hsplit
      exact .na .na whole ((hna _ _ _).mp hm)
  · intro ha
    cases ha with
    | @na _ hs _ _ _ t _ record whole more =>
      refine ⟨naStringLength,hs,t,rfl,readStringHeader_eq_ok.mpr ?_,whole,(hna _ _ _).mpr more⟩
      cases record with
      | na => exact .inr ⟨rfl,rfl⟩
      | disguised => exact .inl ⟨_,headerEncodes_na.mpr rfl,rfl⟩
    | @empty _ hs _ _ _ t _ record whole more =>
      exact ⟨0,hs,t,rfl,readStringHeader_eq_ok.mpr (.inl ⟨hs,record,rfl⟩),whole,
        (hzero _ _ _).mpr more⟩
    | @string _ n hs _ _ _ t _ record filled known whole more =>
      exact ⟨n,hs,t,rfl,readStringHeader_eq_ok.mpr (.inl ⟨hs,record,rfl⟩),whole,
        (h n filled known _ _ _).mpr more⟩

theorem object {d : Nat} {f : Qstype × Nat × Nat → ClaimingReader α}
    (hnil : ∀ n k, Foretells boundary todo queue (f (.nil,n,k)))
    (hlist : ∀ n k, Foretells boundary (.room (.attributes k) :: .attributes d k ::
      .room (.list n) :: .elements d n :: todo) queue (f (.list,n,k)))
    (hvector : ∀ type n k, type ≠ .nil → type ≠ .list → type ≠ .attribute →
      Foretells boundary (.room (.vector type n) :: .room (.attributes k) ::
        .attributes d k :: .payload type n :: todo) queue (f (type,n,k))) :
    Foretells boundary (.object (d+1) :: todo) queue (readObjectHeader.claimless >>= f) := by
  refine of_cons fun x s c cs => readObjectHeader_whole.makes.trans ⟨?_,?_⟩
  · rintro ⟨⟨type,n,k⟩,hs,t,rfl,hr,whole,hm⟩
    obtain ⟨header,hsplit,hheader⟩ := readObjectHeader_takes hr
    obtain rfl := List.append_cancel_right hsplit
    by_cases hn : type = .nil
    · subst hn
      exact .nil hheader whole ((hnil _ _ _ _ _).mp hm)
    by_cases hl : type = .list
    · subst hl
      exact .list hheader whole ((hlist _ _ _ _ _).mp hm)
    have hobject : type ≠ .attribute := by
      cases hheader with
      | plain _ object => exact object
      | counted _ _ object => exact object
    exact .vector hheader hn hl whole ((hvector _ _ _ hn hl hobject _ _ _).mp hm)
  · intro ha
    cases ha with
    | @nil _ n k hs _ _ _ t _ header whole more =>
      obtain ⟨m,hm,_⟩ := header.decoded t
      exact ⟨(.nil,m,k),hs,t,rfl,hm,whole,(hnil _ _ _ _ _).mpr more⟩
    | @vector _ n k type hs _ _ _ t _ header some leaf whole more =>
      have hobject : type ≠ .attribute := by
        cases header with
        | plain _ object => exact object
        | counted _ _ object => exact object
      exact ⟨(type,n,k),hs,t,rfl,header.reads some t,whole,
        (hvector _ _ _ some leaf hobject _ _ _).mpr more⟩
    | @list _ n k hs _ _ _ t _ header whole more =>
      exact ⟨(.list,n,k),hs,t,rfl,header.reads (by decide) t,whole,
        (hlist _ _ _ _ _).mpr more⟩

end Foretells

end

/-! String vectors are queued by address. Their lengths stay as the cells grow. -/

def Building.stringSizes (st : Building) : List Nat :=
  st.stringPayloads.map fun address => (st.cells.getD address (.raw [])).size

def Building.Addressed (st : Building) : Prop :=
  ∀ address ∈ st.stringPayloads, address < st.cells.length

section
variable {st st' : Building}

theorem Building.Addressed.allocate (h : st.Addressed) (leaf : Leaf) :
    (st.allocate leaf).Addressed := by
  intro address ha
  have hlt := h address ha
  simp only [Building.allocate,List.length_append,List.length_singleton]
  omega

theorem Building.Addressed.stringSizes_allocate (h : st.Addressed) (leaf : Leaf) :
    (st.allocate leaf).stringSizes = st.stringSizes := by
  refine List.map_congr_left fun address ha => ?_
  rw [Building.allocate,List.getD_append _ _ _ _ (h address ha)]

theorem Building.Addressed.register (h : st'.Addressed) {leaf : Leaf}
    (hc : (st.allocate leaf).cells <+: st'.cells) :
    (st'.register st.cells.length leaf).Addressed ∧
      (st'.register st.cells.length leaf).stringSizes = st'.stringSizes ++
        if leaf.type = .character ∧ 0 < leaf.size then [leaf.size] else [] := by
  obtain ⟨more,hmore⟩ := hc
  have hlt : st.cells.length < st'.cells.length := by
    rw [← hmore]
    simp only [Building.allocate,List.length_append,List.length_singleton]
    omega
  have hat : st'.cells.getD st.cells.length (.raw []) = leaf := by
    rw [← hmore]
    simp [Building.allocate]
  unfold Building.register
  split
  · next hpos =>
    cases leaf with
    | string records =>
      refine ⟨fun address ha => ?_,?_⟩
      · rcases List.mem_append.mp ha with ha | ha
        · exact h address ha
        · rw [List.mem_singleton.mp ha]
          exact hlt
      · rw [if_pos ⟨rfl,hpos⟩]
        simp only [Building.stringSizes,List.map_append,List.map_cons,List.map_nil,hat]
    | _ => exact ⟨h,by simp [Building.stringSizes,Leaf.type]⟩
  · next hpos =>
    rw [if_neg (fun hand => hpos hand.2),List.append_nil]
    exact ⟨h,rfl⟩

end

/-! The header pass. -/

def ForetellsObject (boundary : Nat → Prop) (d : Nat)
    (self : Building → ClaimingReader (Shell × Building)) : Prop :=
  ∀ {β : Type} {todo : List Part} {f : Shell × Building → ClaimingReader β} {st : Building},
    st.Addressed →
    (∀ x st', st'.Addressed → st.cells <+: st'.cells →
      Foretells boundary todo st'.stringSizes (f (x,st'))) →
    Foretells boundary (.object d :: todo) st.stringSizes (self st >>= f)

section
variable {boundary : Nat → Prop} {β : Type} {todo : List Part} {d : Nat}
  {self : Building → ClaimingReader (Shell × Building)}
  (hself : ForetellsObject boundary d self)
include hself

theorem attributeLoop_foretells (n : Nat) {f : List (Bytes × Shell) × Building → ClaimingReader β}
    {st : Building} (hst : st.Addressed)
    (hf : ∀ attrs st', st'.Addressed → st.cells <+: st'.cells →
      Foretells boundary todo st'.stringSizes (f (attrs,st'))) :
    Foretells boundary (.attributes d n :: todo) st.stringSizes
      (claimingAttributeLoop self n st >>= f) := by
  induction n generalizing st f with
  | zero =>
    refine .of_cons fun x s c cs => ?_
    refine (hf [] st hst (List.prefix_refl _) x s (c :: cs)).trans ⟨.noAttribute,fun ha => ?_⟩
    cases ha with
    | noAttribute more => exact more
  | succ n ih =>
    rw [claimingAttributeLoop,Requests.bind_assoc]
    refine .name ?_ fun nameLength hna => ?_
    · intro x s c cs hm
      exact hm
    rw [if_neg hna,Requests.bind_assoc]
    refine .room ?_
    have hrest : ∀ name : Bytes, Foretells boundary
        (.room .namedObject :: .object d :: .attributes d n :: todo) st.stringSizes
        (claim .namedObject >>= fun _ => self st >>= fun x =>
          claimingAttributeLoop self n x.2 >>= fun y => f ((name,x.1) :: y.1,y.2)) := fun name =>
      .room (hself hst fun x st' hst' hc => ih hst' fun rest st'' hst'' hc' =>
        hf _ st'' hst'' (hc.trans hc'))
    by_cases hlen : nameLength > 0
    · simp only [if_pos hlen,Requests.bind_assoc]
      exact .text fun name _ => hrest name
    · simp only [if_neg hlen,Requests.bind_assoc]
      obtain rfl : nameLength = 0 := Nat.eq_zero_of_not_pos hlen
      exact .noText (hrest [])

theorem attributes_foretells (n : Nat) {f : List (Bytes × Shell) × Building → ClaimingReader β}
    {st : Building} (hst : st.Addressed)
    (hf : ∀ attrs st', st'.Addressed → st.cells <+: st'.cells →
      Foretells boundary todo st'.stringSizes (f (attrs,st'))) :
    Foretells boundary (.room (.attributes n) :: .attributes d n :: todo) st.stringSizes
      (claimingAttributes self n st >>= f) := by
  rw [claimingAttributes,Requests.bind_assoc]
  exact .room (attributeLoop_foretells hself n hst hf)

theorem values_foretells (n : Nat) {f : List Shell × Building → ClaimingReader β}
    {st : Building} (hst : st.Addressed)
    (hf : ∀ values st', st'.Addressed → st.cells <+: st'.cells →
      Foretells boundary todo st'.stringSizes (f (values,st'))) :
    Foretells boundary (.elements d n :: todo) st.stringSizes
      (claimingValues self n st >>= f) := by
  induction n generalizing st f with
  | zero =>
    refine .of_cons fun x s c cs => ?_
    refine (hf [] st hst (List.prefix_refl _) x s (c :: cs)).trans ⟨.noElement,fun ha => ?_⟩
    cases ha with
    | noElement more => exact more
  | succ n ih =>
    simp only [claimingValues,Requests.bind_assoc]
    have hone : Foretells boundary (.room .element :: .object d :: .elements d n :: todo)
        st.stringSizes (claim .element >>= fun _ => self st >>= fun x =>
          claimingValues self n x.2 >>= fun y => f (x.1 :: y.1,y.2)) :=
      .room (hself hst fun x st' hst' hc => ih hst' fun rest st'' hst'' hc' =>
        hf _ st'' hst'' (hc.trans hc'))
    refine .of_cons fun x s c cs => (hone x s (c :: cs)).trans ⟨.element,fun ha => ?_⟩
    cases ha with
    | element more => exact more

theorem vector_foretells (ofSize : Nat → Leaf) {type : Qstype}
    (hof : ∀ n, (ofSize n).type = type ∧ (ofSize n).size = n) (n k : Nat)
    {f : Shell × Building → ClaimingReader β} {st : Building} (hst : st.Addressed)
    (hf : ∀ x st', st'.Addressed → st.cells <+: st'.cells →
      Foretells boundary todo st'.stringSizes (f (x,st'))) :
    Foretells boundary (.room (.vector type n) :: .room (.attributes k) ::
      .attributes d k :: .payload type n :: todo) st.stringSizes
        (claimingVector self ofSize type n k st >>= f) := by
  rw [claimingVector,Requests.bind_assoc]
  refine .room ?_
  rw [Requests.bind_assoc,← hst.stringSizes_allocate (ofSize n)]
  refine attributes_foretells hself k (hst.allocate _) fun attrs st' hst' hc => ?_
  obtain ⟨haddressed,hsizes⟩ := hst'.register hc
  rw [(hof n).1,(hof n).2] at hsizes
  have hgrown : st.cells <+: (st'.register st.cells.length (ofSize n)).cells := by
    rw [Building.cells_register]
    exact (List.prefix_append _ _).trans hc
  have hnext := hf (.vector st.cells.length attrs) _ haddressed hgrown
  rw [hsizes] at hnext
  by_cases hn : n > 0
  · simp only [if_pos hn,Requests.bind_assoc]
    have hqueued : Foretells boundary (.room (.queued type) :: todo)
        (st'.stringSizes ++ if type = .character then [n] else [])
        (claim (.queued type) >>= fun _ =>
          f (.vector st.cells.length attrs,st'.register st.cells.length (ofSize n))) := by
      simp only [hn,and_true] at hnext
      exact .room hnext
    refine .of_cons fun x s c cs => (hqueued x s (c :: cs)).trans ⟨.payload hn,fun ha => ?_⟩
    cases ha with
    | noPayload => cases hn
    | payload _ more => exact more
  · obtain rfl : n = 0 := Nat.eq_zero_of_not_pos hn
    simp only [Nat.lt_irrefl,and_false,if_false,List.append_nil] at hnext
    simp only [if_neg hn]
    refine .of_cons fun x s c cs => (hnext x s (c :: cs)).trans ⟨.noPayload,fun ha => ?_⟩
    cases ha with
    | noPayload more => exact more
    | payload filled => exact absurd filled (Nat.lt_irrefl 0)

end

theorem claimingInto_foretells (boundary : Nat → Prop) (d : Nat) :
    ForetellsObject boundary d (claimingInto d) := by
  induction d with
  | zero =>
    intro β todo f st hst hf
    refine .of_cons fun x s c cs => ⟨False.elim,fun ha => ?_⟩
    cases ha
  | succ d ih =>
    intro β todo f st hst hf
    rw [claimingInto,Requests.bind_assoc]
    refine .object (fun n k => ?_) (fun n k => ?_) fun type n k hnil hlist hattr => ?_
    · exact hf .nil st hst (List.prefix_refl _)
    · have hlist : Foretells boundary (.room (.attributes k) :: .attributes d k ::
          .room (.list n) :: .elements d n :: todo) st.stringSizes
          (claimingAttributes (claimingInto d) k st >>= fun x => claim (.list n) >>= fun _ =>
            claimingValues (claimingInto d) n x.2 >>= fun y => f (.list y.1 x.1,y.2)) :=
        attributes_foretells ih k hst fun attrs st' hst' hc => .room
          (values_foretells ih n hst' fun values st'' hst'' hc' => hf _ st'' hst'' (hc.trans hc'))
      simp only [Requests.bind_assoc]
      exact hlist
    · have hvector := fun ofSize (hof : ∀ n, (ofSize n).type = type ∧ (ofSize n).size = n) =>
        vector_foretells ih ofSize hof n k hst hf
      cases type with
      | nil => exact absurd rfl hnil
      | list => exact absurd rfl hlist
      | «attribute» => exact absurd rfl hattr
      | logical => exact hvector logicalOfSize (fun n => ⟨rfl,List.length_replicate⟩)
      | integer => exact hvector integerOfSize (fun n => ⟨rfl,List.length_replicate⟩)
      | real => exact hvector realOfSize (fun n => ⟨rfl,List.length_replicate⟩)
      | complex => exact hvector complexOfSize (fun n => ⟨rfl,List.length_replicate⟩)
      | character => exact hvector stringOfSize (fun n => ⟨rfl,List.length_replicate⟩)
      | raw => exact hvector rawOfSize (fun n => ⟨rfl,List.length_replicate⟩)

/-! The payload pass. -/

section
variable {boundary : Nat → Prop} {β : Type} {todo : List Part} {queue : List Nat}

theorem records_foretells (n : Nat) {f : List (Option Bytes) → ClaimingReader β}
    (hf : ∀ records, records.length = n → Foretells boundary todo queue (f records)) :
    Foretells boundary (.records n :: todo) queue (claimingRecords n >>= f) := by
  induction n generalizing f with
  | zero =>
    refine .of_cons fun x s c cs => (hf [] rfl x s (c :: cs)).trans ⟨.noRecord,fun ha => ?_⟩
    cases ha with
    | noRecord more => exact more
  | succ n ih =>
    have hrest : ∀ r, Foretells boundary (.records n :: todo) queue
        (claimingRecords n >>= fun rest => f (r :: rest)) := fun r =>
      ih fun rest hrest => hf _ (by rw [List.length_cons,hrest])
    rw [claimingRecords,Requests.bind_assoc]
    refine .record ?_ ?_ fun stringLength hpos hna => ?_
    · simp only [if_true,Requests.bind_assoc]
      exact hrest none
    · have hna : ¬ 0 = naStringLength := by decide
      simp only [if_neg hna,if_true,Requests.bind_assoc]
      exact hrest (some [])
    · simp only [if_neg hna,if_neg (Nat.ne_of_gt hpos),Requests.bind_assoc]
      refine .room (.text fun s hs => ?_)
      by_cases hlarge : stringLength > defaultStringStorageBytes
      · simp only [if_pos hlarge,Requests.bind_assoc]
        exact .room (hrest (some s))
      · simp only [if_neg hlarge,Requests.bind_assoc]
        exact hrest (some s)

theorem stringGroup_foretells (addresses : List Nat) {cells : List Leaf}
    {f : List Leaf → ClaimingReader β} (hf : ∀ cells, Foretells boundary [] [] (f cells)) :
    Foretells boundary [] (addresses.map fun address => (cells.getD address (.raw [])).size)
      (claimingStringGroup addresses cells >>= f) := by
  induction addresses generalizing cells with
  | nil => exact hf cells
  | cons address rest ih =>
    generalize hsize : (cells.getD address (.raw [])).size = n
    have hone : Foretells boundary [.room .storage,.records n,.room .slab]
        (rest.map fun address => (cells.getD address (.raw [])).size)
        (claim .storage >>= fun _ => claimingRecords n >>= fun records =>
          claim .slab >>= fun _ =>
            claimingStringGroup rest (cells.set address (.string records)) >>= f) := by
      refine .room (records_foretells n fun records hlen => .room ?_)
      have hsame : (rest.map fun address => (cells.getD address (.raw [])).size) =
          rest.map fun a => ((cells.set address (.string records)).getD a (.raw [])).size := by
        refine List.map_congr_left fun a _ => ?_
        by_cases ha : a < cells.length
        · by_cases heq : address = a
          · subst heq
            rw [hsize,List.getD_eq_getElem _ _ (by simpa using ha),List.getElem_set_self]
            exact hlen.symm
          · rw [List.getD_eq_getElem _ _ ha,List.getD_eq_getElem _ _ (by simpa using ha),
              List.getElem_set_ne heq]
        · have hle := Nat.le_of_not_lt ha
          rw [List.getD_eq_default _ _ hle,List.getD_eq_default _ _ (by simpa using hle)]
      rw [hsame]
      exact ih
    simp only [claimingStringGroup,claimingStringPayloads,List.map_cons,hsize,
      Requests.bind_assoc]
    refine .of_cons fun x s c cs => (hone x s (c :: cs)).trans ⟨.strings,fun ha => ?_⟩
    cases ha with
    | strings more => exact more

end

/-- What the deserializer claims is what the bytes announce. -/
theorem claimingStreamRead_foretells (boundary : Nat → Prop) (d : Nat) :
    Foretells boundary [.object d] [] (claimingStreamRead d) := by
  have hdata : ∀ (shell : Shell) (st : Building), Foretells boundary [] st.stringSizes
      (claimingObjectData st >>= fun cells => pure (shell.resolve cells)) := by
    intro shell st
    simp only [claimingObjectData,Requests.bind_assoc]
    refine stringGroup_foretells _ fun cells => .of_cons fun x s c cs => ⟨fun hm => ?_,nofun⟩
    -- behind the strings nothing is claimed
    obtain ⟨cells,t,_,_,hm⟩ := makes_claimless.mp hm
    obtain ⟨cells,t,_,_,hm⟩ := makes_claimless.mp hm
    obtain ⟨cells,t,_,_,hm⟩ := makes_claimless.mp hm
    obtain ⟨cells,t,_,_,hm⟩ := makes_claimless.mp hm
    exact hm.elim
  have hobject : Foretells boundary [.object d] (Building.stringSizes {})
      (claimingInto d {} >>= fun x => claimingObjectData x.2 >>= fun cells =>
        pure (x.1.resolve cells)) :=
    claimingInto_foretells boundary d (fun _ ha => nomatch ha) fun x st' _ _ => hdata x st'
  exact hobject

end QData
