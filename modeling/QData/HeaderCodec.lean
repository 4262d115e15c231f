import QData.StreamWriter
import QData.Deserializer
/-! Headers written by the stream writer read back over a byte channel, whichever of
their widths the writer picks. -/
set_option autoImplicit false

namespace QData
open Words Requests

/-- The ideal byte channel: every call takes its bytes from the front. -/
def channel : Handler GetOp Bytes ReadError Bytes := fun op s =>
  if op.size ≤ s.length then .ok (s.take op.size,s.drop op.size)
  else .error (.error (.cleanup "Unexpected end of file"))

theorem channel_append (op : GetOp) (bs : Bytes) (h : op.size = bs.length) (rest : Bytes) :
    channel op (bs ++ rest) = .ok (bs,rest) := by
  simp [channel,h]

theorem channel_empty {op : GetOp} (h : 0 < op.size) :
    channel op [] = .error (.error (.cleanup "Unexpected end of file")) := by
  simp [channel]; omega

theorem channel_extend (rest : Bytes) (op : GetOp) (s t : Bytes) (h : t = s ++ rest) :
    Refines (fun s t => t = s ++ rest) (channel op s) (channel op t) := by
  subst h
  intro bs s' hs
  by_cases hl : op.size ≤ s.length
  · simp only [channel,if_pos hl,Except.ok.injEq,Prod.mk.injEq] at hs
    obtain ⟨rfl,rfl⟩ := hs
    refine ⟨s.drop op.size ++ rest,?_,rfl⟩
    simp only [channel,List.length_append]
    rw [if_pos (by omega),List.take_append_of_le_length hl,List.drop_append_of_le_length hl]
  · simp [channel,if_neg hl] at hs

theorem run_channel_extend {α : Type} {p : Reader α} {s t : Bytes} {a : α}
    (h : p.run channel s = .ok (a,t)) (rest : Bytes) :
    p.run channel (s ++ rest) = .ok (a,t ++ rest) := by
  obtain ⟨u,hu,rfl⟩ := run_refines (channel_extend rest) p rfl a t h
  exact hu

@[simp] theorem run_getPod (size : Nat) (s : Bytes) :
    (getPod size).run channel s =
      match channel (.pod size) s with
      | .ok (bs,s') => .ok (toNat bs,s')
      | .error e => .error e := by
  rw [getPod,run_bind,run_request]
  cases channel (.pod size) s <;> rfl

@[simp] theorem run_getPodContiguous (size : Nat) (s : Bytes) :
    (getPodContiguous size).run channel s =
      match channel (.podContiguous size) s with
      | .ok (bs,s') => .ok (toNat bs,s')
      | .error e => .error e := by
  rw [getPodContiguous,run_bind,run_request]
  cases channel (.podContiguous size) s <;> rfl

theorem run_getPod_byte (b : UInt8) (s : Bytes) :
    (getPod 1).run channel (b :: s) = .ok (b.toNat,s) := by
  have h := channel_append (.pod 1) [b] rfl s
  simp only [List.cons_append,List.nil_append] at h
  simp [h,Words.toNat]

theorem run_getPodContiguous_byte (b : UInt8) (s : Bytes) :
    (getPodContiguous 1).run channel (b :: s) = .ok (b.toNat,s) := by
  have h := channel_append (.podContiguous 1) [b] rfl s
  simp only [List.cons_append,List.nil_append] at h
  simp [h,Words.toNat]

theorem run_getPodContiguous_word {w n : Nat} (h : n < 256 ^ w) (s : Bytes) :
    (getPodContiguous w).run channel (toBytes w n ++ s) = .ok (n,s) := by
  simp [channel_append (.podContiguous w) _ (length_toBytes w n).symm s,toNat_toBytes h]

theorem run_getData {bs : Bytes} {n : Nat} (h : n = bs.length) (s : Bytes) :
    (getData n).run channel (bs ++ s) = .ok (bs,s) := by
  simp [getData,channel_append (.data n) bs h s]

/-- Bytes that decode as one header of the given type and length. -/
def HeaderFor (type : Qstype) (length : Nat) (bs : Bytes) : Prop :=
  ∃ b tail, bs = b :: tail ∧ ∀ len rest,
    (decodeObjectHeader b len).run channel (tail ++ rest) = .ok ((type,length),rest)

def NarrowHeader (h : UInt8) (type : Qstype) : Prop :=
  ∀ n < max5BitLength, (h ||| UInt8.ofNat n) &&& bitmaskType5 ≠ 0 ∧
    narrowHeaders.lookup ((h ||| UInt8.ofNat n) &&& bitmaskType5) = some type ∧
    ((h ||| UInt8.ofNat n) &&& bitmaskLength5).toNat = n

instance (h : UInt8) (type : Qstype) : Decidable (NarrowHeader h type) :=
  inferInstanceAs (Decidable (∀ n < max5BitLength, _))

def WideHeader (h : UInt8) (type : Qstype) (width : Nat) : Prop :=
  h &&& bitmaskType5 = 0 ∧ h ≠ nilHeader ∧ wideHeaders.lookup h = some (type,width)

instance (h : UInt8) (type : Qstype) (width : Nat) : Decidable (WideHeader h type width) :=
  inferInstanceAs (Decidable (_ ∧ _))

theorem headerFor_narrow {h : UInt8} {type : Qstype} {n : Nat} (hh : NarrowHeader h type)
    (hn : n < max5BitLength) : HeaderFor type n [h ||| UInt8.ofNat n] := by
  obtain ⟨hz,hl,hv⟩ := hh n hn
  refine ⟨_,[],rfl,fun len rest => ?_⟩
  simp [decodeObjectHeader,hz,hl,hv]

theorem headerFor_wide {h : UInt8} {type : Qstype} {w n : Nat} (hh : WideHeader h type w)
    (hn : n < 256 ^ w) : HeaderFor type n (h :: toBytes w n) := by
  obtain ⟨hz,hnil,hl⟩ := hh
  refine ⟨_,_,rfl,fun len rest => ?_⟩
  simp only [decodeObjectHeader,hz,hnil,hl,if_true,if_false]
  rw [run_bind_ok (run_getPodContiguous_word hn rest)]
  rfl

@[simp] theorem pushPod_pushed (bs : Bytes) : (pushPod bs).pushed = [.pod bs] := rfl
@[simp] theorem pushPod_error (bs : Bytes) : (pushPod bs).error = none := rfl
@[simp] theorem pushPodContiguous_pushed (bs : Bytes) :
    (pushPodContiguous bs).pushed = [.podContiguous bs] := rfl
@[simp] theorem pushPodContiguous_error (bs : Bytes) : (pushPodContiguous bs).error = none := rfl
@[simp] theorem pushData_pushed (bs : Bytes) : (pushData bs).pushed = [.data bs] := rfl
@[simp] theorem pushData_error (bs : Bytes) : (pushData bs).error = none := rfl

def Emits (r : WriteRun) (bs : Bytes) : Prop :=
  r.error = none ∧ pushedBytes r.pushed = bs ∧ r.deferred = {}

theorem emits_nothing : Emits {} [] := ⟨rfl,rfl,rfl⟩
theorem emits_pushPod (bs : Bytes) : Emits (pushPod bs) bs := ⟨rfl,by simp [PushOp.bytes],rfl⟩
theorem emits_pushPodContiguous (bs : Bytes) : Emits (pushPodContiguous bs) bs :=
  ⟨rfl,by simp [PushOp.bytes],rfl⟩
theorem emits_pushData (bs : Bytes) : Emits (pushData bs) bs := ⟨rfl,by simp [PushOp.bytes],rfl⟩

theorem emits_pushPodIf (bs : Bytes) (c : Bool) : Emits (pushPodIf bs c) bs := by
  cases c
  · exact emits_pushPod bs
  · exact emits_pushPodContiguous bs

theorem Emits.append {a b : WriteRun} {xs ys : Bytes} (ha : Emits a xs) (hb : Emits b ys) :
    Emits (a ++ b) (xs ++ ys) := by
  rw [WriteRun.append_ok ha.1]
  exact ⟨hb.1,by simp [ha.2.1,hb.2.1],by rw [ha.2.2,hb.2.2]; rfl⟩

theorem writeLengthHeader32_emits {h32 h64 : UInt8} {type : Qstype}
    (w32 : WideHeader h32 type 4) (w64 : WideHeader h64 type 8) {length : Nat}
    (hl : length < 2 ^ 64) (c : Bool) :
    ∃ bs, Emits (writeLengthHeader32 h32 h64 length c) bs ∧ HeaderFor type length bs := by
  by_cases h : length < max32BitLength
  · refine ⟨_,?_,headerFor_wide w32 (by simpa [max32BitLength] using h)⟩
    rw [writeLengthHeader32,if_pos h]
    exact (emits_pushPodIf [h32] c).append (emits_pushPodContiguous _)
  · refine ⟨_,?_,headerFor_wide w64 (by simpa using hl)⟩
    rw [writeLengthHeader32,if_neg h]
    exact (emits_pushPodIf [h64] c).append (emits_pushPodContiguous _)

theorem writeLengthHeader5_emits {h5 h8 h16 h32 h64 : UInt8} {type : Qstype}
    (n5 : NarrowHeader h5 type) (w8 : WideHeader h8 type 1) (w16 : WideHeader h16 type 2)
    (w32 : WideHeader h32 type 4) (w64 : WideHeader h64 type 8) {length : Nat}
    (hl : length < 2 ^ 64) (c : Bool) :
    ∃ bs, Emits (writeLengthHeader5 h5 h8 h16 h32 h64 length c) bs ∧
      HeaderFor type length bs := by
  by_cases h₅ : length < max5BitLength
  · refine ⟨_,?_,headerFor_narrow n5 h₅⟩
    rw [writeLengthHeader5,if_pos h₅]
    exact emits_pushPodIf _ c
  by_cases h₈ : length < max8BitLength
  · refine ⟨_,?_,headerFor_wide w8 (by simpa [max8BitLength] using h₈)⟩
    rw [writeLengthHeader5,if_neg h₅,if_pos h₈]
    exact (emits_pushPodIf [h8] c).append (emits_pushPodContiguous _)
  by_cases h₁₆ : length < max16BitLength
  · refine ⟨_,?_,headerFor_wide w16 (by simpa [max16BitLength] using h₁₆)⟩
    rw [writeLengthHeader5,if_neg h₅,if_neg h₈,if_pos h₁₆]
    exact (emits_pushPodIf [h16] c).append (emits_pushPodContiguous _)
  rw [writeLengthHeader5,if_neg h₅,if_neg h₈,if_neg h₁₆]
  exact writeLengthHeader32_emits w32 w64 hl c

theorem writeAttrHeader_emits {length : Nat} (hl : length < 2 ^ 32) :
    ∃ bs, Emits (writeAttrHeader length) bs ∧ HeaderFor .attribute length bs := by
  by_cases h₅ : length < max5BitLength
  · refine ⟨_,?_,headerFor_narrow (h := attributeHeader5) (by decide) h₅⟩
    rw [writeAttrHeader,if_pos h₅]
    exact emits_pushPod _
  by_cases h₈ : length < max8BitLength
  · refine ⟨_,?_,headerFor_wide (h := attributeHeader8) (w := 1) (by decide)
      (by simpa [max8BitLength] using h₈)⟩
    rw [writeAttrHeader,if_neg h₅,if_pos h₈]
    exact (emits_pushPod [attributeHeader8]).append (emits_pushPodContiguous _)
  · refine ⟨_,?_,headerFor_wide (h := attributeHeader32) (w := 4) (by decide)
      (by simpa using hl)⟩
    rw [writeAttrHeader,if_neg h₅,if_neg h₈]
    exact (emits_pushPod [attributeHeader32]).append (emits_pushPodContiguous _)

theorem readObjectHeader_plain {type : Qstype} {length : Nat} {bs : Bytes}
    (h : HeaderFor type length bs) (ht : type ≠ .attribute) (rest : Bytes) :
    readObjectHeader.run channel (bs ++ rest) = .ok ((type,length,0),rest) := by
  obtain ⟨b,tail,rfl,hd⟩ := h
  rw [readObjectHeader,List.cons_append,run_bind_ok (run_getPod_byte b _)]
  simp only [UInt8.ofNat_toNat]
  rw [run_bind_ok (hd 0 rest)]
  simp [ht]

theorem readObjectHeader_attrs {type : Qstype} {length attrLength : Nat} {as bs : Bytes}
    (ha : HeaderFor .attribute attrLength as) (h : HeaderFor type length bs)
    (ht : type ≠ .attribute) (rest : Bytes) :
    readObjectHeader.run channel (as ++ bs ++ rest) = .ok ((type,length,attrLength),rest) := by
  obtain ⟨a,atail,rfl,had⟩ := ha
  obtain ⟨b,tail,rfl,hd⟩ := h
  rw [readObjectHeader,List.append_assoc,List.cons_append,run_bind_ok (run_getPod_byte a _)]
  simp only [UInt8.ofNat_toNat]
  rw [run_bind_ok (had 0 _)]
  simp only [if_true,List.cons_append]
  rw [run_bind_ok (run_getPodContiguous_byte b _)]
  simp only [UInt8.ofNat_toNat]
  rw [run_bind_ok (hd attrLength rest)]
  simp [ht]

/-- Bytes that the reader takes as the full header of an object. -/
def ReadsHeader (type : Qstype) (length attrLength : Nat) (bs : Bytes) : Prop :=
  ∀ rest, readObjectHeader.run channel (bs ++ rest) = .ok ((type,length,attrLength),rest)

theorem writeHeader_reads {body : Bool → WriteRun} {type : Qstype} {length attrLength : Nat}
    (ht : type ≠ .attribute)
    (hb : ∀ c, ∃ bs, Emits (body c) bs ∧ HeaderFor type length bs)
    (ha : attrLength < 2 ^ 32) :
    ∃ bs, Emits (writeHeader body attrLength) bs ∧ ReadsHeader type length attrLength bs := by
  by_cases h : attrLength > 0
  · obtain ⟨as,hae,haf⟩ := writeAttrHeader_emits ha
    obtain ⟨bs,hbe,hbf⟩ := hb true
    refine ⟨as ++ bs,?_,readObjectHeader_attrs haf hbf ht⟩
    rw [writeHeader,if_pos h]
    exact hae.append hbe
  · obtain ⟨bs,hbe,hbf⟩ := hb false
    have hz : attrLength = 0 := by omega
    subst hz
    refine ⟨bs,?_,readObjectHeader_plain hbf ht⟩
    rw [writeHeader,if_neg h]
    exact hbe

theorem beginVector_reads {what : String} {header : Nat → Nat → WriteRun} {type : Qstype}
    {size attrCount : Nat} (hs : size ≤ maxRCompatibleVectorLength)
    (ha : attrCount ≤ maxRCompatibleAttrCount)
    (hh : size < 2 ^ 64 → attrCount < 2 ^ 32 → ∃ bs, Emits (header size attrCount) bs ∧
      ReadsHeader type size attrCount bs) :
    ∃ bs, Emits (beginVector what header size attrCount) bs ∧
      ReadsHeader type size attrCount bs := by
  have hs' : size < 2 ^ 64 := by simp only [maxRCompatibleVectorLength] at hs; omega
  have ha' : attrCount < 2 ^ 32 := by simp only [maxRCompatibleAttrCount] at ha; omega
  obtain ⟨bs,hbe,hbr⟩ := hh hs' ha'
  refine ⟨bs,?_,hbr⟩
  rw [beginVector,checkedObjectLength,if_neg (by omega),checkedAttrCount,if_neg (by omega)]
  exact emits_nothing.append (emits_nothing.append hbe)

theorem beginVector_rejects {what : String} {header : Nat → Nat → WriteRun}
    {size attrCount : Nat}
    (h : ¬ (size ≤ maxRCompatibleVectorLength ∧ attrCount ≤ maxRCompatibleAttrCount)) :
    ∃ e, beginVector what header size attrCount = failWith e := by
  by_cases hs : size > maxRCompatibleVectorLength
  · refine ⟨what ++ " exceeds qdata's R-compatible vector length limit",?_⟩
    rw [beginVector,checkedObjectLength,if_pos hs,WriteRun.append_failed rfl]
  · have ha : attrCount > maxRCompatibleAttrCount := by omega
    refine ⟨"attribute count exceeds qdata's R-compatible INT_MAX limit",?_⟩
    rw [beginVector,checkedObjectLength,if_neg hs,checkedAttrCount,if_pos ha,
      WriteRun.append_failed (a := failWith _) rfl,WriteRun.append_ok rfl]
    rfl

def FiveWidths (type : Qstype) (h5 h8 h16 h32 h64 : UInt8) : Prop :=
  type ≠ .attribute ∧ NarrowHeader h5 type ∧ WideHeader h8 type 1 ∧ WideHeader h16 type 2 ∧
    WideHeader h32 type 4 ∧ WideHeader h64 type 8

instance (type : Qstype) (h5 h8 h16 h32 h64 : UInt8) :
    Decidable (FiveWidths type h5 h8 h16 h32 h64) :=
  inferInstanceAs (Decidable (_ ∧ _))

def TwoWidths (type : Qstype) (h32 h64 : UInt8) : Prop :=
  type ≠ .attribute ∧ WideHeader h32 type 4 ∧ WideHeader h64 type 8

instance (type : Qstype) (h32 h64 : UInt8) : Decidable (TwoWidths type h32 h64) :=
  inferInstanceAs (Decidable (_ ∧ _))

theorem FiveWidths.reads {type : Qstype} {h5 h8 h16 h32 h64 : UInt8}
    (h : FiveWidths type h5 h8 h16 h32 h64) {what : String} {size attrCount : Nat}
    (hs : size ≤ maxRCompatibleVectorLength) (ha : attrCount ≤ maxRCompatibleAttrCount) :
    ∃ bs, Emits (beginVector what (fun l a =>
        writeHeader (writeLengthHeader5 h5 h8 h16 h32 h64 l) a) size attrCount) bs ∧
      ReadsHeader type size attrCount bs := by
  obtain ⟨ht,n5,w8,w16,w32,w64⟩ := h
  exact beginVector_reads hs ha fun hl hc =>
    writeHeader_reads ht (writeLengthHeader5_emits n5 w8 w16 w32 w64 hl) hc

theorem TwoWidths.reads {type : Qstype} {h32 h64 : UInt8} (h : TwoWidths type h32 h64)
    {what : String} {size attrCount : Nat}
    (hs : size ≤ maxRCompatibleVectorLength) (ha : attrCount ≤ maxRCompatibleAttrCount) :
    ∃ bs, Emits (beginVector what (fun l a =>
        writeHeader (writeLengthHeader32 h32 h64 l) a) size attrCount) bs ∧
      ReadsHeader type size attrCount bs := by
  obtain ⟨ht,w32,w64⟩ := h
  exact beginVector_reads hs ha fun hl hc =>
    writeHeader_reads ht (writeLengthHeader32_emits w32 w64 hl) hc

theorem logicalHeaders : FiveWidths .logical logicalHeader5 logicalHeader8 logicalHeader16
    logicalHeader32 logicalHeader64 := by decide

theorem integerHeaders : FiveWidths .integer integerHeader5 integerHeader8 integerHeader16
    integerHeader32 integerHeader64 := by decide

theorem numericHeaders : FiveWidths .real numericHeader5 numericHeader8 numericHeader16
    numericHeader32 numericHeader64 := by decide

theorem characterHeaders : FiveWidths .character characterHeader5 characterHeader8
    characterHeader16 characterHeader32 characterHeader64 := by decide

theorem listHeaders : FiveWidths .list listHeader5 listHeader8 listHeader16 listHeader32
    listHeader64 := by decide

theorem complexHeaders : TwoWidths .complex complexHeader32 complexHeader64 := by decide

theorem rawHeaders : TwoWidths .raw rawHeader32 rawHeader64 := by decide

theorem beginLeafVector_reads {leaf : Leaf} {attrCount : Nat}
    (hs : leaf.size ≤ maxRCompatibleVectorLength)
    (ha : attrCount ≤ maxRCompatibleAttrCount) :
    ∃ bs, Emits (beginLeafVector leaf attrCount) bs ∧
      ReadsHeader leaf.type leaf.size attrCount bs := by
  cases leaf with
  | logical xs => exact logicalHeaders.reads hs ha
  | integer xs => exact integerHeaders.reads hs ha
  | real xs => exact numericHeaders.reads hs ha
  | complex xs => exact complexHeaders.reads hs ha
  | string xs => exact characterHeaders.reads hs ha
  | raw xs => exact rawHeaders.reads hs ha

theorem beginListVector_reads {size attrCount : Nat}
    (hs : size ≤ maxRCompatibleVectorLength) (ha : attrCount ≤ maxRCompatibleAttrCount) :
    ∃ bs, Emits (beginListVector size attrCount) bs ∧
      ReadsHeader .list size attrCount bs :=
  listHeaders.reads hs ha

theorem beginLeafVector_rejects {leaf : Leaf} {attrCount : Nat}
    (h : ¬ (leaf.size ≤ maxRCompatibleVectorLength ∧ attrCount ≤ maxRCompatibleAttrCount)) :
    ∃ e, beginLeafVector leaf attrCount = failWith e := by
  cases leaf <;> exact beginVector_rejects h

theorem readStringHeader_byte {b : UInt8} (h : b.toNat < maxString8BitLength) (rest : Bytes) :
    readStringHeader.run channel (b :: rest) = .ok (b.toNat,rest) := by
  have h₁ : b.toNat ≠ stringHeader16.toNat := by
    simp only [maxString8BitLength] at h
    exact Nat.ne_of_lt h
  have h₂ : b.toNat ≠ stringHeader32.toNat := by
    simp only [maxString8BitLength] at h
    exact Nat.ne_of_lt (Nat.lt_trans h (by decide))
  have h₃ : b.toNat ≠ stringHeaderNA.toNat := by
    simp only [maxString8BitLength] at h
    exact Nat.ne_of_lt (Nat.lt_trans h (by decide))
  rw [readStringHeader,run_bind_ok (run_getPod_byte b rest),if_neg h₁,if_neg h₂,if_neg h₃]
  rfl

theorem readStringHeader_short {n : Nat} (h : n < 2 ^ 16) (rest : Bytes) :
    readStringHeader.run channel (stringHeader16 :: (toBytes 2 n ++ rest)) = .ok (n,rest) := by
  rw [readStringHeader,run_bind_ok (run_getPod_byte _ _),if_pos rfl]
  exact run_getPodContiguous_word (by simpa using h) rest

theorem readStringHeader_long {n : Nat} (h : n < 2 ^ 32) (rest : Bytes) :
    readStringHeader.run channel (stringHeader32 :: (toBytes 4 n ++ rest)) = .ok (n,rest) := by
  rw [readStringHeader,run_bind_ok (run_getPod_byte _ _),if_neg (by decide),if_pos rfl]
  exact run_getPodContiguous_word (by simpa using h) rest

theorem readStringHeader_na (rest : Bytes) :
    readStringHeader.run channel (stringHeaderNA :: rest) = .ok (naStringLength,rest) := by
  rw [readStringHeader,run_bind_ok (run_getPod_byte _ _),if_neg (by decide),
    if_neg (by decide),if_pos rfl]
  rfl

theorem writeStringHeader_reads {n : Nat} (h : n < 2 ^ 32) :
    ∃ bs, Emits (writeStringHeader n) bs ∧
      ∀ rest, readStringHeader.run channel (bs ++ rest) = .ok (n,rest) := by
  by_cases h₈ : n < maxString8BitLength
  · have hb : (UInt8.ofNat n).toNat = n := by
      simp only [maxString8BitLength] at h₈
      simp; omega
    refine ⟨toBytes 1 n,?_,fun rest => ?_⟩
    · rw [writeStringHeader,if_pos h₈]
      exact emits_pushPod _
    · have hr := readStringHeader_byte (b := UInt8.ofNat n) (by rw [hb]; exact h₈) rest
      rw [hb] at hr
      exact hr
  by_cases h₁₆ : n < maxString16BitLength
  · refine ⟨stringHeader16 :: toBytes 2 n,?_,readStringHeader_short h₁₆⟩
    rw [writeStringHeader,if_neg h₈,if_pos h₁₆]
    exact (emits_pushPod [stringHeader16]).append (emits_pushPodContiguous _)
  · refine ⟨stringHeader32 :: toBytes 4 n,?_,readStringHeader_long h⟩
    rw [writeStringHeader,if_neg h₈,if_neg h₁₆]
    exact (emits_pushPod [stringHeader32]).append (emits_pushPodContiguous _)

theorem readStringHeader_empty :
    readStringHeader.run channel [] =
      .error (.error (.cleanup "Unexpected end of file")) := by
  rw [readStringHeader,run_bind,run_getPod,channel_empty (by decide)]

theorem readObjectHeader_empty :
    readObjectHeader.run channel [] =
      .error (.error (.cleanup "Unexpected end of file")) := by
  rw [readObjectHeader,run_bind,run_getPod,channel_empty (by decide)]

end QData
