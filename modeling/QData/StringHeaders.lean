import QData.StringRecords
import QData.StringStorage
import QData.Lib.Spans
/-! The five routines for string headers: two that write them and three that read them. -/
set_option autoImplicit false

namespace QData
open Words Requests

def maxQdataStringHeaderBytes : Nat := 5

/-! A `char` is signed; bytes go into it and out of it with a cast that keeps the bits. -/

def chars (bs : Bytes) : List Int8 := bs.map UInt8.toInt8

def bytesOf (cs : List Int8) : Bytes := cs.map Int8.toUInt8

@[simp] theorem bytesOf_chars (bs : Bytes) : bytesOf (chars bs) = bs := by
  simp [bytesOf,chars,Function.comp_def]

@[simp] theorem length_chars (bs : Bytes) : (chars bs).length = bs.length := by
  simp [chars]

theorem chars_append (xs ys : Bytes) : chars (xs ++ ys) = chars xs ++ chars ys := by
  simp [chars]

def copyChars (offset : Nat) (bs : Bytes) (dst : List Int8) : List Int8 :=
  dst.take offset ++ chars bs ++ dst.drop (offset+bs.length)

def readStringHeaderAt (header : List Int8) : Nat × Nat :=
  let first := (header.headD 0).toUInt8
  if first = stringHeader16 then (toNat (bytesOf ((header.drop 1).take 2)),1+2)
  else if first = stringHeader32 then (toNat (bytesOf ((header.drop 1).take 4)),1+4)
  else if first = stringHeaderNA then (naStringLength,1)
  else (first.toNat,1)

structure HeaderRecord where
  stringLen : Nat
  headerBytes : List Int8
  headerSize : Nat
  deriving DecidableEq, Repr

def readStringHeaderRecord (headerBytes : List Int8) : Reader HeaderRecord := do
  let first ← getPod 1
  let headerBytes := copyChars 0 (toBytes 1 first) headerBytes
  if first = stringHeader16.toNat then
    let narrow ← getPodContiguous 2
    pure ⟨narrow,copyChars 1 (toBytes 2 narrow) headerBytes,1+2⟩
  else if first = stringHeader32.toNat then
    let wide ← getPodContiguous 4
    pure ⟨wide,copyChars 1 (toBytes 4 wide) headerBytes,1+4⟩
  else if first = stringHeaderNA.toNat then pure ⟨naStringLength,headerBytes,1⟩
  else pure ⟨first,headerBytes,1⟩

def headerTail (first : UInt8) : Nat :=
  if first = stringHeader16 then 2 else if first = stringHeader32 then 4 else 0

/-- A header with nothing missing and nothing behind it. -/
def CompleteHeader (header : Bytes) : Prop :=
  ∃ first tail, header = first :: tail ∧ tail.length = headerTail first

def headerLength : Bytes → Nat
  | [] => 0
  | first :: tail =>
      if first = stringHeaderNA then naStringLength
      else if headerTail first = 0 then first.toNat else toNat tail

theorem writeStringHeader_bytes (n : Nat) :
    Emits (writeStringHeader n) (encodeStringHeader n) := by
  unfold writeStringHeader encodeStringHeader
  split
  · exact emits_pushPod _
  · split
    · exact (emits_pushPod [stringHeader16]).append (emits_pushPodContiguous _)
    · exact (emits_pushPod [stringHeader32]).append (emits_pushPodContiguous _)

theorem encodeStringHeader_complete {n : Nat} (h : n < 2 ^ 32) :
    CompleteHeader (encodeStringHeader n) ∧ headerLength (encodeStringHeader n) = n := by
  unfold encodeStringHeader
  split
  · next h8 =>
    have hb : (UInt8.ofNat n).toNat = n := by
      simp [maxString8BitLength] at h8 ⊢; omega
    have hne : ∀ b : UInt8, maxString8BitLength ≤ b.toNat → UInt8.ofNat n ≠ b := by
      rintro _ hle rfl
      omega
    have h16 := hne stringHeader16 (by decide)
    have h32 := hne stringHeader32 (by decide)
    have hna := hne stringHeaderNA (by decide)
    exact ⟨⟨_,[],rfl,by simp [headerTail,h16,h32]⟩,by
      simp [toBytes,headerLength,headerTail,h16,h32,hna,hb]⟩
  · split
    · next h16 =>
      refine ⟨⟨stringHeader16,_,rfl,by simp [headerTail]⟩,?_⟩
      have hn : n < 256 ^ 2 := by simp [maxString16BitLength] at h16; omega
      simp [headerLength,headerTail,stringHeader16,stringHeaderNA,toNat_toBytes hn]
    · refine ⟨⟨stringHeader32,_,rfl,by simp [headerTail,stringHeader16,stringHeader32]⟩,?_⟩
      have hn : n < 256 ^ 4 := by omega
      simp [headerLength,headerTail,stringHeader16,stringHeader32,stringHeaderNA,
        toNat_toBytes hn]

theorem completeHeader_cases {header : Bytes} (h : CompleteHeader header) :
    (∃ tail, tail.length = 2 ∧ header = stringHeader16 :: tail) ∨
      (∃ tail, tail.length = 4 ∧ header = stringHeader32 :: tail) ∨
        ∃ first, first ≠ stringHeader16 ∧ first ≠ stringHeader32 ∧ header = [first] := by
  obtain ⟨first,tail,rfl,hl⟩ := h
  by_cases h16 : first = stringHeader16
  · subst h16
    simp [headerTail] at hl
    exact .inl ⟨tail,hl,rfl⟩
  · by_cases h32 : first = stringHeader32
    · subst h32
      simp [headerTail,stringHeader16,stringHeader32] at hl
      exact .inr (.inl ⟨tail,hl,rfl⟩)
    · simp [headerTail,h16,h32] at hl
      subst hl
      exact .inr (.inr ⟨first,h16,h32,rfl⟩)

theorem run_getPodContiguous_bytes {bs : Bytes} {w : Nat} (h : bs.length = w) (rest : Bytes) :
    (getPodContiguous w).run channel (bs ++ rest) = .ok (toNat bs,rest) := by
  subst h
  exact getPodContiguous_eq_ok.mpr ⟨toNat_lt bs,by rw [toBytes_toNat]⟩

theorem copyChars_copyChars (xs ys : Bytes) (dst : List Int8) :
    copyChars xs.length ys (copyChars 0 xs dst) = copyChars 0 (xs ++ ys) dst := by
  have hl : (chars xs).length = xs.length := length_chars xs
  simp [copyChars,chars_append,List.drop_append,hl]

theorem UInt8.toNat_ne {a b : UInt8} (h : a ≠ b) : a.toNat ≠ b.toNat := fun he =>
  h (UInt8.toNat_inj.mp he)

/-- The three decoders take the header and nothing behind it, and agree on what it means. -/
structure DecodesTo (header : Bytes) (n : Nat) : Prop where
  reader : ∀ rest, readStringHeader.run channel (header ++ rest) = .ok (n,rest)
  pointer : ∀ rest, readStringHeaderAt (chars (header ++ rest)) = (n,header.length)
  record : ∀ rest buffer, maxQdataStringHeaderBytes ≤ buffer.length →
    ∃ headerBytes, (readStringHeaderRecord buffer).run channel (header ++ rest) =
        .ok (⟨n,headerBytes,header.length⟩,rest) ∧
      headerBytes.length = buffer.length ∧ headerBytes.take header.length = chars header ∧
      headerBytes.drop header.length = buffer.drop header.length

theorem copyChars_front {header : Bytes} {buffer : List Int8}
    (h : header.length ≤ buffer.length) :
    (copyChars 0 header buffer).length = buffer.length ∧
      (copyChars 0 header buffer).take header.length = chars header ∧
      (copyChars 0 header buffer).drop header.length = buffer.drop header.length := by
  have hl : (chars header).length = header.length := length_chars header
  simp [copyChars,hl]
  omega

theorem readStringHeader_complete {header : Bytes} (h : CompleteHeader header) (rest : Bytes) :
    readStringHeader.run channel (header ++ rest) = .ok (headerLength header,rest) := by
  unfold readStringHeader
  rcases completeHeader_cases h with ⟨tail,hl,rfl⟩ | ⟨tail,hl,rfl⟩ | ⟨first,h16,h32,rfl⟩
  · rw [List.cons_append,run_bind_ok (run_getPod_byte _ _),if_pos rfl,
      run_getPodContiguous_bytes hl]
    simp [headerLength,headerTail,stringHeader16,stringHeaderNA]
  · rw [List.cons_append,run_bind_ok (run_getPod_byte _ _),if_neg (by decide),if_pos rfl,
      run_getPodContiguous_bytes hl]
    simp [headerLength,headerTail,stringHeader16,stringHeader32,stringHeaderNA]
  · rw [List.cons_append,run_bind_ok (run_getPod_byte _ _),if_neg (UInt8.toNat_ne h16),
      if_neg (UInt8.toNat_ne h32)]
    by_cases hna : first = stringHeaderNA
    · simp [headerLength,hna]
    · simp [headerLength,headerTail,h16,h32,hna,UInt8.toNat_ne hna]

theorem chars_tail {first : UInt8} {tail : Bytes} {w : Nat} (h : tail.length = w)
    (rest : Bytes) : bytesOf (((chars (first :: tail ++ rest)).drop 1).take w) = tail := by
  subst h
  simp [chars,bytesOf,Function.comp_def]

theorem readStringHeaderAt_complete {header : Bytes} (h : CompleteHeader header)
    (rest : Bytes) :
    readStringHeaderAt (chars (header ++ rest)) = (headerLength header,header.length) := by
  have hfirst : ∀ first tail, ((chars (first :: tail ++ rest)).headD 0).toUInt8 = first := by
    simp [chars]
  unfold readStringHeaderAt
  rcases completeHeader_cases h with ⟨tail,hl,rfl⟩ | ⟨tail,hl,rfl⟩ | ⟨first,h16,h32,rfl⟩
  · simp only [hfirst,chars_tail hl,if_true]
    simp [headerLength,headerTail,stringHeader16,stringHeaderNA,hl]
  · simp only [hfirst,chars_tail hl]
    simp [headerLength,headerTail,stringHeader16,stringHeader32,stringHeaderNA,hl]
  · simp only [hfirst,if_neg h16,if_neg h32]
    by_cases hna : first = stringHeaderNA
    · simp [headerLength,hna]
    · simp [headerLength,headerTail,h16,h32,hna]

theorem readStringHeaderRecord_complete {header : Bytes} (h : CompleteHeader header)
    (rest : Bytes) (buffer : List Int8) :
    (readStringHeaderRecord buffer).run channel (header ++ rest) =
      .ok (⟨headerLength header,copyChars 0 header buffer,header.length⟩,rest) := by
  have hcopy : ∀ (first : UInt8) tail, copyChars 1 tail
      (copyChars 0 (toBytes 1 first.toNat) buffer) = copyChars 0 (first :: tail) buffer := by
    intro first tail
    have hbyte : toBytes 1 first.toNat = [first] := by simp [toBytes]
    rw [hbyte]
    exact copyChars_copyChars [first] tail buffer
  unfold readStringHeaderRecord
  rcases completeHeader_cases h with ⟨tail,hl,rfl⟩ | ⟨tail,hl,rfl⟩ | ⟨first,h16,h32,rfl⟩
  · have htail : toBytes 2 (toNat tail) = tail := by rw [← hl,toBytes_toNat]
    rw [List.cons_append,run_bind_ok (run_getPod_byte _ _),if_pos rfl,
      run_bind_ok (run_getPodContiguous_bytes hl rest),htail,hcopy]
    simp [headerLength,headerTail,stringHeader16,stringHeaderNA,hl]
  · have htail : toBytes 4 (toNat tail) = tail := by rw [← hl,toBytes_toNat]
    rw [List.cons_append,run_bind_ok (run_getPod_byte _ _),if_neg (by decide),if_pos rfl,
      run_bind_ok (run_getPodContiguous_bytes hl rest),htail,hcopy]
    simp [headerLength,headerTail,stringHeader16,stringHeader32,stringHeaderNA,hl]
  · have hbyte : toBytes 1 first.toNat = [first] := by simp [toBytes]
    rw [List.cons_append,run_bind_ok (run_getPod_byte _ _),if_neg (UInt8.toNat_ne h16),
      if_neg (UInt8.toNat_ne h32),hbyte]
    by_cases hna : first = stringHeaderNA
    · simp [headerLength,hna]
    · simp [headerLength,headerTail,h16,h32,hna,UInt8.toNat_ne hna]

theorem CompleteHeader.length_le {header : Bytes} (h : CompleteHeader header) :
    header.length ≤ maxQdataStringHeaderBytes := by
  rcases completeHeader_cases h with ⟨tail,hl,rfl⟩ | ⟨tail,hl,rfl⟩ | ⟨first,_,_,rfl⟩ <;>
    simp [maxQdataStringHeaderBytes] <;> omega

theorem CompleteHeader.decodes {header : Bytes} (h : CompleteHeader header) :
    DecodesTo header (headerLength header) where
  reader := readStringHeader_complete h
  pointer := readStringHeaderAt_complete h
  record rest buffer hb :=
    ⟨_,readStringHeaderRecord_complete h rest buffer,copyChars_front (h.length_le.trans hb)⟩

theorem readStringHeaderRecord_alike (buffer : List Int8) :
    (readStringHeaderRecord buffer).Alike (fun r n => r.stringLen = n) readStringHeader := by
  refine (Prog.Alike.refl _).bind fun first n h => ?_
  subst h
  split
  · exact (Prog.Alike.refl _).bind fun narrow n h => h
  · split
    · exact (Prog.Alike.refl _).bind fun wide n h => h
    · split <;> exact rfl

/-- Both encoders write the same header, and all three decoders take it back to the length;
they agree on every other header as well, and on 255. -/
theorem string_headers_agree :
    (∀ n < 2 ^ 32-1, (writeStringHeader n).error = none ∧
      pushedBytes (writeStringHeader n).pushed = encodeStringHeader n) ∧
    (∀ header, CompleteHeader header → ∃ n, DecodesTo header n) ∧
    (∀ n < 2 ^ 32-1, DecodesTo (encodeStringHeader n) n) ∧
    DecodesTo [stringHeaderNA] naStringLength ∧
    ∀ buffer, (readStringHeaderRecord buffer).Alike (fun r n => r.stringLen = n)
      readStringHeader := by
  refine ⟨fun n _ => ?_,fun header h => ⟨_,h.decodes⟩,fun n hn => ?_,?_,
    readStringHeaderRecord_alike⟩
  · have h := writeStringHeader_bytes n
    exact ⟨h.1,h.2.1⟩
  · obtain ⟨hc,hl⟩ := encodeStringHeader_complete (by omega : n < 2 ^ 32)
    have h := hc.decodes
    rwa [hl] at h
  · exact CompleteHeader.decodes ⟨stringHeaderNA,[],rfl,by decide⟩

end QData
