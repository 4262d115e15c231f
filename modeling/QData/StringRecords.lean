import QData.HeaderCodec
/-! The string records of a payload and the names of attributes: which bytes are taken for
which string. -/
set_option autoImplicit false

namespace QData
open Words Requests

def readStringRecord : Reader (Option Bytes) := do
  let stringLength ← readStringHeader
  if stringLength = naStringLength then pure none
  else if stringLength = 0 then pure (some [])
  else
    let size ← checkedRCompatibleStringSize stringLength "string length"
    let s ← getData size
    pure (some s)

theorem readStringPayloads_succ (n : Nat) :
    readStringPayloads (n+1) = (do
      let r ← readStringRecord
      let rest ← readStringPayloads n
      pure (r :: rest)) := by
  rw [readStringPayloads,readStringRecord,bind_assoc]
  congr 1
  funext stringLength
  split
  · rfl
  · split
    · rfl
    · rw [bind_assoc]
      rfl

def readAttributeName : Reader Bytes := do
  let nameLength ← readStringHeader
  if nameLength = naStringLength then cleanupAndThrow "Attribute names cannot be NA"
  else
    let size ← checkedRCompatibleStringSize nameLength "attribute name length"
    if nameLength > 0 then getData size else pure []

theorem readAttributeLoop_succ (self : Building → Reader (Shell × Building)) (n : Nat)
    (st : Building) :
    readAttributeLoop self (n+1) st = (do
      let name ← readAttributeName
      let (x,st) ← self st
      let (rest,st) ← readAttributeLoop self n st
      pure ((name,x) :: rest,st)) := by
  rw [readAttributeLoop,readAttributeName,bind_assoc]
  congr 1
  funext nameLength
  split
  · rfl
  · rw [bind_assoc]
    congr 1
    funext size
    split <;> rfl

theorem channel_eq_ok {op : GetOp} {s bs rest : Bytes} :
    channel op s = .ok (bs,rest) ↔ bs.length = op.size ∧ s = bs ++ rest := by
  constructor
  · intro h
    unfold channel at h
    split at h
    · next hl =>
      cases h
      exact ⟨List.length_take_of_le hl,(List.take_append_drop _ _).symm⟩
    · cases h
  · rintro ⟨hl,rfl⟩
    exact channel_append op bs hl.symm rest

theorem word_eq_ok {p : Reader Nat} {w n : Nat} {s rest : Bytes}
    (hp : ∀ n, p.run channel s = .ok (n,rest) ↔ ∃ bs, bs.length = w ∧ s = bs ++ rest ∧
      n = toNat bs) :
    p.run channel s = .ok (n,rest) ↔ n < 256 ^ w ∧ s = toBytes w n ++ rest := by
  rw [hp]
  constructor
  · rintro ⟨bs,rfl,rfl,rfl⟩
    exact ⟨toNat_lt bs,by rw [toBytes_toNat]⟩
  · rintro ⟨hn,rfl⟩
    exact ⟨toBytes w n,length_toBytes w n,rfl,(toNat_toBytes hn).symm⟩

theorem request_eq_ok {op : GetOp} {n : Nat} {s rest : Bytes} :
    (Prog.request op >>= fun bs => pure (toNat bs) : Reader Nat).run channel s = .ok (n,rest) ↔
      n < 256 ^ op.size ∧ s = toBytes op.size n ++ rest := by
  refine word_eq_ok fun n => ?_
  rw [run_bind_eq_ok]
  simp only [run_request,channel_eq_ok,run_pure,Except.ok.injEq,Prod.mk.injEq]
  constructor
  · rintro ⟨bs,_,⟨hl,rfl⟩,rfl,rfl⟩
    exact ⟨bs,hl,rfl,rfl⟩
  · rintro ⟨bs,hl,rfl,rfl⟩
    exact ⟨bs,rest,⟨hl,rfl⟩,rfl,rfl⟩

theorem getPod_eq_ok {w n : Nat} {s rest : Bytes} :
    (getPod w).run channel s = .ok (n,rest) ↔ n < 256 ^ w ∧ s = toBytes w n ++ rest :=
  request_eq_ok

theorem getPodContiguous_eq_ok {w n : Nat} {s rest : Bytes} :
    (getPodContiguous w).run channel s = .ok (n,rest) ↔
      n < 256 ^ w ∧ s = toBytes w n ++ rest :=
  request_eq_ok

theorem getData_eq_ok {n : Nat} {s x rest : Bytes} :
    (getData n).run channel s = .ok (x,rest) ↔ x.length = n ∧ s = x ++ rest := by
  rw [getData,run_request]
  exact channel_eq_ok

theorem checkedStringSize_eq_ok {value : Nat} {what : String} {n : Nat} {s rest : Bytes} :
    (checkedRCompatibleStringSize value what).run channel s = .ok (n,rest) ↔
      value ≤ maxRCompatibleStringLength ∧ n = value ∧ rest = s := by
  unfold checkedRCompatibleStringSize
  split
  · next h =>
    refine ⟨nofun,fun hv => ?_⟩
    omega
  · next h =>
    simp only [run_pure,Except.ok.injEq,Prod.mk.injEq]
    constructor
    · rintro ⟨rfl,rfl⟩
      exact ⟨Nat.not_lt.mp h,rfl,rfl⟩
    · rintro ⟨_,rfl,rfl⟩
      exact ⟨rfl,rfl⟩

/-- The headers for a string of `n` bytes: directly, as 16 bits or as 32 bits. A length may
be written wider than it needs. -/
def HeaderEncodes (n : Nat) (header : Bytes) : Prop :=
  (n < maxString8BitLength ∧ header = toBytes 1 n) ∨
    (n < 2 ^ 16 ∧ header = stringHeader16 :: toBytes 2 n) ∨
    (n < 2 ^ 32 ∧ header = stringHeader32 :: toBytes 4 n)

theorem stringHeader_byte {n : Nat} (hn : n < 256 ^ 1) {b : UInt8} (h : n = b.toNat) :
    toBytes 1 n = [b] := by
  subst h
  simp [toBytes]

theorem readStringHeader_eq_ok {n : Nat} {s rest : Bytes} :
    readStringHeader.run channel s = .ok (n,rest) ↔
      (∃ header, HeaderEncodes n header ∧ s = header ++ rest) ∨
        (n = naStringLength ∧ s = stringHeaderNA :: rest) := by
  unfold readStringHeader
  simp only [run_bind_eq_ok,getPod_eq_ok]
  constructor
  · rintro ⟨first,tail,⟨hfirst,rfl⟩,h⟩
    split at h
    · next h16 =>
      obtain ⟨hn,rfl⟩ := getPodContiguous_eq_ok.mp h
      exact .inl ⟨_,.inr (.inl ⟨hn,rfl⟩),by rw [stringHeader_byte hfirst h16]; rfl⟩
    · split at h
      · next h32 =>
        obtain ⟨hn,rfl⟩ := getPodContiguous_eq_ok.mp h
        exact .inl ⟨_,.inr (.inr ⟨hn,rfl⟩),by rw [stringHeader_byte hfirst h32]; rfl⟩
      · split at h
        · next hna =>
          cases h
          exact .inr ⟨rfl,by rw [stringHeader_byte hfirst hna]; rfl⟩
        · next h16 h32 hna =>
          cases h
          have hlt : n < maxString8BitLength := by
            simp [stringHeader16,stringHeader32,stringHeaderNA] at h16 h32 hna
            simp only [maxString8BitLength]
            omega
          exact .inl ⟨_,.inl ⟨hlt,rfl⟩,rfl⟩
  · rintro (⟨header,h | h | h,rfl⟩ | ⟨rfl,rfl⟩)
    · obtain ⟨hn,rfl⟩ := h
      simp only [maxString8BitLength] at hn
      refine ⟨n,rest,⟨by omega,rfl⟩,?_⟩
      rw [if_neg (by simp [stringHeader16]; omega),if_neg (by simp [stringHeader32]; omega),
        if_neg (by simp [stringHeaderNA]; omega)]
      rfl
    · obtain ⟨hn,rfl⟩ := h
      refine ⟨253,toBytes 2 n ++ rest,⟨by decide,rfl⟩,?_⟩
      rw [if_pos (by decide),getPodContiguous_eq_ok]
      exact ⟨hn,rfl⟩
    · obtain ⟨hn,rfl⟩ := h
      refine ⟨254,toBytes 4 n ++ rest,⟨by decide,rfl⟩,?_⟩
      rw [if_neg (by decide),if_pos (by decide),getPodContiguous_eq_ok]
      exact ⟨hn,rfl⟩
    · exact ⟨255,rest,⟨by decide,rfl⟩,rfl⟩

/-- The 32-bit form carrying the length that stands for NA. -/
def disguisedNA : Bytes := stringHeader32 :: toBytes 4 naStringLength

theorem headerEncodes_na {header : Bytes} :
    HeaderEncodes naStringLength header ↔ header = disguisedNA := by
  simp [HeaderEncodes,maxString8BitLength,naStringLength,disguisedNA]

/-- A record is NA or text in exactly the ways the format gives. -/
structure RecordAsSpecified (s : Bytes) : Prop where
  na : ∀ rest, readStringRecord.run channel s = .ok (none,rest) ↔ s = stringHeaderNA :: rest
  text : ∀ x rest, readStringRecord.run channel s = .ok (some x,rest) ↔
    ∃ header, HeaderEncodes x.length header ∧ x.length ≤ maxRCompatibleStringLength ∧
      s = header ++ x ++ rest
  oversized : ∀ n rest, maxRCompatibleStringLength < n → n < 2 ^ 32 →
    s = stringHeader32 :: toBytes 4 n ++ rest → ∃ e, readStringRecord.run channel s = .error e

structure NameAsSpecified (s : Bytes) : Prop where
  na : ∀ rest, s = stringHeaderNA :: rest → ∃ e, readAttributeName.run channel s = .error e
  text : ∀ x rest, readAttributeName.run channel s = .ok (x,rest) ↔
    ∃ header, HeaderEncodes x.length header ∧ x.length ≤ maxRCompatibleStringLength ∧
      s = header ++ x ++ rest
  oversized : ∀ n rest, maxRCompatibleStringLength < n → n < 2 ^ 32 →
    s = stringHeader32 :: toBytes 4 n ++ rest → ∃ e, readAttributeName.run channel s = .error e

theorem readStringRecord_none {s rest : Bytes} :
    readStringRecord.run channel s = .ok (none,rest) ↔
      readStringHeader.run channel s = .ok (naStringLength,rest) := by
  unfold readStringRecord
  rw [run_bind_eq_ok]
  constructor
  · rintro ⟨n,t,hheader,h⟩
    split at h
    · next hna =>
      cases h
      rw [hheader,hna]
    · split at h
      · cases h
      · simp only [run_bind_eq_ok] at h
        obtain ⟨_,_,_,_,_,_,h⟩ := h
        cases h
  · intro h
    exact ⟨_,_,h,by rw [if_pos rfl]; rfl⟩

theorem readStringRecord_some {s x rest : Bytes} :
    readStringRecord.run channel s = .ok (some x,rest) ↔
      readStringHeader.run channel s = .ok (x.length,x ++ rest) ∧
        x.length ≤ maxRCompatibleStringLength := by
  unfold readStringRecord
  rw [run_bind_eq_ok]
  constructor
  · rintro ⟨n,t,hheader,h⟩
    split at h
    · cases h
    · split at h
      · next hz =>
        cases h
        exact ⟨by rw [hheader,hz]; rfl,Nat.zero_le _⟩
      · simp only [run_bind_eq_ok,checkedStringSize_eq_ok,getData_eq_ok] at h
        obtain ⟨_,_,⟨hmax,rfl,rfl⟩,y,_,⟨hlen,rfl⟩,h⟩ := h
        cases h
        exact ⟨by rw [hheader,hlen],by omega⟩
  · rintro ⟨hheader,hmax⟩
    refine ⟨_,_,hheader,?_⟩
    rw [if_neg (by simp only [maxRCompatibleStringLength,naStringLength] at *; omega)]
    split
    · next hz =>
      rw [List.eq_nil_of_length_eq_zero hz]
      rfl
    · simp only [run_bind_eq_ok,checkedStringSize_eq_ok,getData_eq_ok]
      exact ⟨_,_,⟨hmax,rfl,rfl⟩,x,rest,⟨rfl,rfl⟩,rfl⟩

theorem readAttributeName_eq_ok {s x rest : Bytes} :
    readAttributeName.run channel s = .ok (x,rest) ↔
      readStringHeader.run channel s = .ok (x.length,x ++ rest) ∧
        x.length ≤ maxRCompatibleStringLength := by
  unfold readAttributeName
  rw [run_bind_eq_ok]
  constructor
  · rintro ⟨n,t,hheader,h⟩
    split at h
    · cases h
    · rw [run_bind_eq_ok] at h
      obtain ⟨_,_,hsize,h⟩ := h
      obtain ⟨hmax,rfl,rfl⟩ := checkedStringSize_eq_ok.mp hsize
      split at h
      · obtain ⟨rfl,rfl⟩ := getData_eq_ok.mp h
        exact ⟨hheader,hmax⟩
      · next hz =>
        cases h
        exact ⟨by rw [hheader,Nat.eq_zero_of_not_pos hz]; rfl,Nat.zero_le _⟩
  · rintro ⟨hheader,hmax⟩
    refine ⟨_,_,hheader,?_⟩
    rw [if_neg (by simp only [maxRCompatibleStringLength,naStringLength] at *; omega),
      run_bind_eq_ok]
    refine ⟨_,_,checkedStringSize_eq_ok.mpr ⟨hmax,rfl,rfl⟩,?_⟩
    split
    · exact getData_eq_ok.mpr ⟨rfl,rfl⟩
    · next hz =>
      rw [List.eq_nil_of_length_eq_zero (Nat.eq_zero_of_not_pos hz)]
      rfl

theorem header_text {s x rest : Bytes} :
    (readStringHeader.run channel s = .ok (x.length,x ++ rest) ∧
        x.length ≤ maxRCompatibleStringLength) ↔
      ∃ header, HeaderEncodes x.length header ∧ x.length ≤ maxRCompatibleStringLength ∧
        s = header ++ x ++ rest := by
  rw [readStringHeader_eq_ok]
  constructor
  · rintro ⟨⟨header,he,rfl⟩ | ⟨hna,_⟩,hmax⟩
    · exact ⟨header,he,hmax,by rw [List.append_assoc]⟩
    · simp only [maxRCompatibleStringLength,naStringLength] at *
      omega
  · rintro ⟨header,he,hmax,rfl⟩
    exact ⟨.inl ⟨header,he,by rw [List.append_assoc]⟩,hmax⟩

theorem readStringHeader_wide {n : Nat} (hn : n < 2 ^ 32) (rest : Bytes) :
    readStringHeader.run channel (stringHeader32 :: toBytes 4 n ++ rest) = .ok (n,rest) :=
  readStringHeader_eq_ok.mpr (.inl ⟨_,.inr (.inr ⟨hn,rfl⟩),rfl⟩)

theorem checkedStringSize_rejects {n : Nat} (h : maxRCompatibleStringLength < n) (what : String)
    (s : Bytes) : ∃ e, (checkedRCompatibleStringSize n what).run channel s = .error e := by
  rw [checkedRCompatibleStringSize,if_pos h]
  exact ⟨_,rfl⟩

theorem nameAsSpecified (s : Bytes) : NameAsSpecified s where
  na := by
    rintro rest rfl
    have hheader : readStringHeader.run channel (stringHeaderNA :: rest) =
        .ok (naStringLength,rest) := readStringHeader_eq_ok.mpr (.inr ⟨rfl,rfl⟩)
    rw [readAttributeName,run_bind_ok hheader,if_pos rfl]
    exact ⟨_,rfl⟩
  text x rest := readAttributeName_eq_ok.trans header_text
  oversized := by
    rintro n rest hmax hn rfl
    rw [readAttributeName,run_bind_ok (readStringHeader_wide hn rest)]
    split
    · exact ⟨_,rfl⟩
    · obtain ⟨e,he⟩ := checkedStringSize_rejects hmax "attribute name length" rest
      exact ⟨e,run_bind_error he⟩

theorem recordAsSpecified_iff (s : Bytes) : RecordAsSpecified s ↔ ¬ disguisedNA <+: s := by
  constructor
  · rintro h ⟨rest,rfl⟩
    have hheader : readStringHeader.run channel (disguisedNA ++ rest) =
        .ok (naStringLength,rest) := readStringHeader_wide (by decide) rest
    have hs := (h.na rest).mp (readStringRecord_none.mpr hheader)
    simp [disguisedNA,stringHeader32,stringHeaderNA] at hs
  · intro hs
    refine ⟨fun rest => ?_,fun x rest => readStringRecord_some.trans header_text,?_⟩
    · rw [readStringRecord_none,readStringHeader_eq_ok]
      constructor
      · rintro (⟨header,he,rfl⟩ | ⟨_,rfl⟩)
        · rw [headerEncodes_na.mp he] at hs
          exact absurd (List.prefix_append _ _) hs
        · rfl
      · rintro rfl
        exact .inr ⟨rfl,rfl⟩
    · rintro n rest hmax hn rfl
      have hna : n ≠ naStringLength := by
        rintro rfl
        exact hs (List.prefix_append _ _)
      rw [readStringRecord,run_bind_ok (readStringHeader_wide hn rest),if_neg hna,
        if_neg (by omega)]
      obtain ⟨e,he⟩ := checkedStringSize_rejects hmax "string length" rest
      exact ⟨e,run_bind_error he⟩

inductive Records : Bytes → List (Option Bytes) → Bytes → Prop
  | done (s : Bytes) : Records s [] s
  | record {s t rest : Bytes} {r : Option Bytes} {rs : List (Option Bytes)}
      (first : readStringRecord.run channel s = .ok (r,t)) (more : Records t rs rest) :
      Records s (r :: rs) rest

theorem readStringPayloads_eq_ok {n : Nat} {s rest : Bytes} {rs : List (Option Bytes)} :
    (readStringPayloads n).run channel s = .ok (rs,rest) ↔ rs.length = n ∧ Records s rs rest := by
  induction n generalizing s rs with
  | zero =>
    constructor
    · rintro ⟨⟩
      exact ⟨rfl,.done _⟩
    · rintro ⟨hl,h⟩
      cases h with
      | done => rfl
      | record => cases hl
  | succ n ih =>
    rw [readStringPayloads_succ]
    simp only [run_bind_eq_ok]
    constructor
    · rintro ⟨r,t,hr,more,_,hm,h⟩
      cases h
      obtain ⟨hl,hm⟩ := ih.mp hm
      exact ⟨by rw [List.length_cons,hl],.record hr hm⟩
    · rintro ⟨hl,h⟩
      cases h with
      | done => cases hl
      | record first more => exact ⟨_,_,first,_,_,ih.mpr ⟨Nat.succ.inj hl,more⟩,rfl⟩

/-- Every string record is decoded as the format gives it, wherever it stands, unless it
begins with the 32-bit form of the length that stands for NA; names always are. -/
theorem string_records_iff (s : Bytes) :
    (∀ n rs rest, (readStringPayloads n).run channel s = .ok (rs,rest) ↔
      rs.length = n ∧ Records s rs rest) ∧
    (RecordAsSpecified s ↔ ¬ disguisedNA <+: s) ∧ NameAsSpecified s :=
  ⟨fun _ _ _ => readStringPayloads_eq_ok,recordAsSpecified_iff s,nameAsSpecified s⟩

/-- A 32-bit length beyond the limit is taken for NA. -/
theorem string_record_disguised :
    readStringRecord.run channel [0xFE,0xFF,0xFF,0xFF,0xFF] = .ok (none,[]) ∧
      ¬ RecordAsSpecified [0xFE,0xFF,0xFF,0xFF,0xFF] := by
  have hread : readStringRecord.run channel [0xFE,0xFF,0xFF,0xFF,0xFF] = .ok (none,[]) := rfl
  refine ⟨hread,fun h => ?_⟩
  have hs := (h.na []).mp hread
  revert hs
  decide

end QData
