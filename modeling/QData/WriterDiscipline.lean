import QData.BlockRoundtrip
import QData.StreamWriter
/-! The calls of the stream writer are whole headers and stretches of data, wherever an
exception ends them: a header never runs past the reserve that the block writer keeps for
it. -/
set_option autoImplicit false

namespace QData
open Words

def WriteRun.Grouped (r : WriteRun) : Prop :=
  ∃ groups : List WriteGroup, r.pushed = groups.flatMap WriteGroup.calls ∧
    ∀ g ∈ groups, g.Fits

inductive Header : WriteRun → Prop
  | nil : Header (pushPod [nilHeader])
  | logical (length attrLength : Nat) : Header (writeHeaderLglsxp length attrLength)
  | integer (length attrLength : Nat) : Header (writeHeaderIntsxp length attrLength)
  | real (length attrLength : Nat) : Header (writeHeaderRealsxp length attrLength)
  | complex (length attrLength : Nat) : Header (writeHeaderCplxsxp length attrLength)
  | character (length attrLength : Nat) : Header (writeHeaderStrsxp length attrLength)
  | list (length attrLength : Nat) : Header (writeHeaderVecsxp length attrLength)
  | raw (length attrLength : Nat) : Header (writeHeaderRawsxp length attrLength)
  | string (length : Nat) : Header (writeStringHeader length)
  | stringNA : Header (pushPod [stringHeaderNA])

/-- The calls that write one header, or one stretch of data. -/
inductive Segment : List PushOp → Prop
  | header {r : WriteRun} (h : Header r) : Segment r.pushed
  | data (bs : Bytes) : Segment [.data bs]

def WriteRun.Segmented (r : WriteRun) : Prop :=
  ∃ segments : List (List PushOp), r.pushed = segments.flatten ∧ ∀ s ∈ segments, Segment s

/-- A header so far: its first byte and at most `n` contiguous bytes. -/
def WriteRun.Opens (n : Nat) (r : WriteRun) : Prop :=
  ∃ (b : UInt8) (tail : List Bytes),
    r = { pushed := .pod [b] :: tail.map .podContiguous } ∧ tail.flatten.length ≤ n

def WriteRun.Continues (n : Nat) (r : WriteRun) : Prop :=
  ∃ tail : List Bytes, r = { pushed := tail.map .podContiguous } ∧ tail.flatten.length ≤ n

namespace WriteRun

theorem Segmented.of_none {r : WriteRun} (h : r.pushed = []) : r.Segmented :=
  ⟨[],by rw [h]; rfl,by simp⟩

theorem Segmented.append {a b : WriteRun} (ha : a.Segmented) (hb : b.Segmented) :
    (a ++ b).Segmented := by
  cases h : a.error with
  | some e => rw [append_failed h]; exact ha
  | none =>
    obtain ⟨xs,hx,hxs⟩ := ha
    obtain ⟨ys,hy,hys⟩ := hb
    rw [append_ok h]
    refine ⟨xs ++ ys,by simp [hx,hy],fun s hs => ?_⟩
    rcases List.mem_append.mp hs with hs | hs
    · exact hxs s hs
    · exact hys s hs

theorem Opens.append {m n : Nat} {a b : WriteRun} (ha : a.Opens m) (hb : b.Continues n) :
    (a ++ b).Opens (m+n) := by
  obtain ⟨x,xs,rfl,hx⟩ := ha
  obtain ⟨ys,rfl,hy⟩ := hb
  rw [append_ok rfl]
  refine ⟨x,xs ++ ys,by simp [Payloads.append],?_⟩
  rw [List.flatten_append,List.length_append]
  exact Nat.add_le_add hx hy

theorem Continues.append {m n : Nat} {a b : WriteRun} (ha : a.Continues m)
    (hb : b.Continues n) : (a ++ b).Continues (m+n) := by
  obtain ⟨xs,rfl,hx⟩ := ha
  obtain ⟨ys,rfl,hy⟩ := hb
  rw [append_ok rfl]
  refine ⟨xs ++ ys,by simp [Payloads.append],?_⟩
  rw [List.flatten_append,List.length_append]
  exact Nat.add_le_add hx hy

theorem Opens.mono {m n : Nat} {r : WriteRun} (h : r.Opens m) (hn : m ≤ n) : r.Opens n := by
  obtain ⟨b,tail,hr,hl⟩ := h
  exact ⟨b,tail,hr,Nat.le_trans hl hn⟩

theorem Continues.mono {m n : Nat} {r : WriteRun} (h : r.Continues m) (hn : m ≤ n) :
    r.Continues n := by
  obtain ⟨tail,hr,hl⟩ := h
  exact ⟨tail,hr,Nat.le_trans hl hn⟩

end WriteRun

open WriteRun

theorem pushPod_opens (b : UInt8) : (pushPod [b]).Opens 0 := ⟨b,[],rfl,Nat.le_refl 0⟩

theorem pushPodContiguous_continues (bs : Bytes) : (pushPodContiguous bs).Continues bs.length :=
  ⟨[bs],rfl,by simp⟩

theorem pushLength_continues (w n : Nat) : (pushPodContiguous (toBytes w n)).Continues w := by
  have h := pushPodContiguous_continues (toBytes w n)
  rwa [length_toBytes] at h

theorem pushPodIf_opens (b : UInt8) : (pushPodIf [b] false).Opens 0 := pushPod_opens b

theorem pushPodIf_continues (b : UInt8) : (pushPodIf [b] true).Continues 1 :=
  pushPodContiguous_continues [b]

theorem writeAttrHeader_opens (length : Nat) : (writeAttrHeader length).Opens 4 := by
  rw [writeAttrHeader]
  split
  · exact (pushPod_opens _).mono (Nat.zero_le _)
  · split
    · exact ((pushPod_opens _).append (pushLength_continues _ _)).mono (by decide)
    · exact ((pushPod_opens _).append (pushLength_continues _ _)).mono (by decide)

/-- What the body of a header is for: alone it opens a header of at most nine bytes, behind
an attribute header it continues that. -/
def HeaderBody (body : Bool → WriteRun) : Prop := (body false).Opens 8 ∧ (body true).Continues 9

theorem writeLengthHeader32_body (h32 h64 : UInt8) (length : Nat) :
    HeaderBody (writeLengthHeader32 h32 h64 length) := by
  constructor
  · rw [writeLengthHeader32]
    split
    · exact ((pushPodIf_opens _).append (pushLength_continues _ _)).mono (by decide)
    · exact ((pushPodIf_opens _).append (pushLength_continues _ _)).mono (by decide)
  · rw [writeLengthHeader32]
    split
    · exact ((pushPodIf_continues _).append (pushLength_continues _ _)).mono (by decide)
    · exact ((pushPodIf_continues _).append (pushLength_continues _ _)).mono (by decide)

theorem writeLengthHeader5_body (h5 h8 h16 h32 h64 : UInt8) (length : Nat) :
    HeaderBody (writeLengthHeader5 h5 h8 h16 h32 h64 length) := by
  obtain ⟨hopen,hcont⟩ := writeLengthHeader32_body h32 h64 length
  constructor
  · rw [writeLengthHeader5]
    split
    · exact (pushPodIf_opens _).mono (Nat.zero_le _)
    · split
      · exact ((pushPodIf_opens _).append (pushLength_continues _ _)).mono (by decide)
      · split
        · exact ((pushPodIf_opens _).append (pushLength_continues _ _)).mono (by decide)
        · exact hopen
  · rw [writeLengthHeader5]
    split
    · exact (pushPodIf_continues _).mono (by decide)
    · split
      · exact ((pushPodIf_continues _).append (pushLength_continues _ _)).mono (by decide)
      · split
        · exact ((pushPodIf_continues _).append (pushLength_continues _ _)).mono (by decide)
        · exact hcont

theorem writeHeader_opens {body : Bool → WriteRun} (h : HeaderBody body) (attrLength : Nat) :
    (writeHeader body attrLength).Opens 13 := by
  rw [writeHeader]
  split
  · exact (writeAttrHeader_opens attrLength).append h.2
  · exact h.1.mono (by decide)

theorem writeStringHeader_opens (length : Nat) : (writeStringHeader length).Opens 4 := by
  rw [writeStringHeader]
  split
  · exact (pushPod_opens (UInt8.ofNat length)).mono (Nat.zero_le _)
  · split
    · exact ((pushPod_opens _).append (pushLength_continues _ _)).mono (by decide)
    · exact ((pushPod_opens _).append (pushLength_continues _ _)).mono (by decide)

theorem Header.opens {r : WriteRun} (h : Header r) : r.Opens 13 := by
  cases h with
  | nil => exact (pushPod_opens _).mono (Nat.zero_le _)
  | complex length attrLength => exact writeHeader_opens (writeLengthHeader32_body _ _ _) _
  | raw length attrLength => exact writeHeader_opens (writeLengthHeader32_body _ _ _) _
  | string length => exact (writeStringHeader_opens length).mono (by decide)
  | stringNA => exact (pushPod_opens _).mono (Nat.zero_le _)
  | _ => exact writeHeader_opens (writeLengthHeader5_body _ _ _ _ _ _) _

theorem Header.segmented {r : WriteRun} (h : Header r) : r.Segmented :=
  ⟨[r.pushed],by simp,fun s hs => by rw [List.mem_singleton.mp hs]; exact .header h⟩

theorem Segment.group {s : List PushOp} (h : Segment s) :
    ∃ g : WriteGroup, s = g.calls ∧ g.Fits := by
  cases h with
  | header h =>
    obtain ⟨b,tail,rfl,hl⟩ := h.opens
    exact ⟨.header b tail,rfl,hl⟩
  | data bs => exact ⟨.data bs,rfl,trivial⟩

theorem WriteRun.Segmented.grouped {r : WriteRun} (h : r.Segmented) : r.Grouped := by
  obtain ⟨segments,hr,hs⟩ := h
  rw [Grouped,hr]
  clear hr
  induction segments with
  | nil => exact ⟨[],rfl,by simp⟩
  | cons s segments ih =>
    obtain ⟨g,rfl,hg⟩ := (hs s List.mem_cons_self).group
    obtain ⟨groups,hgroups,hfit⟩ := ih fun t ht => hs t (List.mem_cons_of_mem _ ht)
    refine ⟨g :: groups,by rw [List.flatten_cons,List.flatMap_cons,hgroups],fun x hx => ?_⟩
    rcases List.mem_cons.mp hx with rfl | hx
    · exact hg
    · exact hfit x hx

theorem pushData_segmented (bs : Bytes) : (pushData bs).Segmented :=
  ⟨[[.data bs]],rfl,fun s hs => by rw [List.mem_singleton.mp hs]; exact .data bs⟩

theorem failWith_segmented (msg : String) : (failWith msg).Segmented := Segmented.of_none rfl

theorem check_segmented (p : Prop) [Decidable p] (msg : String) :
    (if p then failWith msg else {}).Segmented := by
  split <;> exact Segmented.of_none rfl

theorem beginVector_segmented {what : String} {header : Nat → Nat → WriteRun}
    (h : ∀ size attrCount, Header (header size attrCount)) (size attrCount : Nat) :
    (beginVector what header size attrCount).Segmented :=
  (check_segmented _ _).append ((check_segmented _ _).append (h size attrCount).segmented)

theorem beginLeafVector_segmented (leaf : Leaf) (attrCount : Nat) :
    (beginLeafVector leaf attrCount).Segmented := by
  cases leaf with
  | logical xs => exact beginVector_segmented .logical _ _
  | integer xs => exact beginVector_segmented .integer _ _
  | real xs => exact beginVector_segmented .real _ _
  | complex xs => exact beginVector_segmented .complex _ _
  | string xs => exact beginVector_segmented .character _ _
  | raw xs => exact beginVector_segmented .raw _ _

theorem beginListVector_segmented (size attrCount : Nat) :
    (beginListVector size attrCount).Segmented :=
  beginVector_segmented .list _ _

theorem writeText_segmented (s : Bytes) : (writeText s).Segmented := by
  refine (check_segmented _ _).append ((Header.string _).segmented.append ?_)
  split
  · exact pushData_segmented s
  · exact Segmented.of_none rfl

theorem deferPayload_segmented (d : Deferred) : (deferPayload d).Segmented := by
  rw [deferPayload]
  split
  · split <;> exact Segmented.of_none rfl
  · exact Segmented.of_none rfl

theorem enterObjectScope_segmented (budget : Nat) : (enterObjectScope budget).Segmented :=
  check_segmented _ _

mutual
theorem writeObject_segmented : (v : Value) → (budget : Nat) → (writeObject budget v).Segmented
  | .nil, budget =>
      (enterObjectScope_segmented budget).append Header.nil.segmented
  | .vector _ leaf attrs, budget =>
      (enterObjectScope_segmented budget).append ((beginLeafVector_segmented leaf _).append
        ((writeAttributes_segmented attrs (budget-1)).append (deferPayload_segmented _)))
  | .list values attrs, budget =>
      (enterObjectScope_segmented budget).append ((beginListVector_segmented _ _).append
        ((writeAttributes_segmented attrs (budget-1)).append
          (writeValues_segmented values (budget-1))))
  | .writable v, budget => writeObject_segmented v budget
  | .uninitialized, _ => failWith_segmented _

theorem writeAttributes_segmented : (attrs : List (Bytes × Value)) → (budget : Nat) →
    (writeAttributes budget attrs).Segmented
  | [], _ => Segmented.of_none rfl
  | (name,v) :: rest, budget =>
      (writeText_segmented name).append ((writeObject_segmented v budget).append
        (writeAttributes_segmented rest budget))

theorem writeValues_segmented : (values : List Value) → (budget : Nat) →
    (writeValues budget values).Segmented
  | [], _ => Segmented.of_none rfl
  | v :: rest, budget =>
      (writeObject_segmented v budget).append (writeValues_segmented rest budget)
end

theorem writeEach_segmented {α : Type} {write : α → WriteRun} (h : ∀ x, (write x).Segmented)
    (xs : List α) : (writeEach write xs).Segmented := by
  induction xs with
  | nil => exact Segmented.of_none rfl
  | cons x xs ih => exact (h x).append ih

theorem emitArray_segmented {α : Type} (put : α → Bytes) (access : Access) (xs : List α) :
    (emitArray put access xs).Segmented := by
  cases access with
  | direct =>
    rw [emitArray,writeArrayData]
    split
    · exact pushData_segmented _
    · exact Segmented.of_none rfl
  | elementwise => exact writeEach_segmented (fun _ => pushData_segmented _) xs

theorem emitPayload_segmented (d : Deferred) : (emitPayload d).Segmented := by
  obtain ⟨_,leaf⟩ := d
  cases leaf with
  | string records =>
    refine writeEach_segmented (fun r => ?_) records
    cases r with
    | none => exact Header.stringNA.segmented
    | some s => exact writeText_segmented s
  | _ => exact emitArray_segmented _ _ _

theorem flushPayloads_segmented (p : Payloads) : (flushPayloads p).Segmented := by
  have h : ∀ payloads, (flushPayloadGroup payloads).Segmented := fun payloads =>
    writeEach_segmented emitPayload_segmented payloads
  exact (h _).append ((h _).append ((h _).append ((h _).append (h _))))

/-- All calls of a write, up to its end or its exception, are whole headers and data. -/
theorem streamWrite_segmented (maxDepth : Nat) (v : Value) :
    (streamWrite maxDepth v).Segmented :=
  (check_segmented _ _).append
    ((writeObject_segmented v maxDepth).append (flushPayloads_segmented _))

theorem streamWrite_grouped (maxDepth : Nat) (v : Value) : (streamWrite maxDepth v).Grouped :=
  (streamWrite_segmented maxDepth v).grouped

theorem streamWrite_inBounds (maxDepth : Nat) (v : Value) :
    InBounds [] (streamWrite maxDepth v).pushed := by
  obtain ⟨groups,hg,hfit⟩ := streamWrite_grouped maxDepth v
  rw [hg]
  exact groups_inBounds hfit

end QData
