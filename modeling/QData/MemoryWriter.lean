import QData.QdataFile
import QData.Checksums
import QData.ReaderMemory
import QData.Lib.Streams
/-! The writer behind `serialize`: a buffer that grows ahead of the write position, and a
seekable file for all that its callers see. -/
set_option autoImplicit false

namespace QData
open Words Requests

def maxSize : Nat := 2 ^ 64 - 1

def addressableError : String := "serialized qdata exceeds addressable buffer size"
def seekError : String := "Seek position is beyond buffer capacity"

def checkedRequiredCapacity (position additionalSize : Nat) : Except String Nat :=
  if additionalSize > sub64 maxSize position then .error addressableError
  else .ok ((position+additionalSize) % 2 ^ 64)

/-- `output_buffer_ops` of a buffer type. Which bytes `resize` appends to which contents is
up to the type. -/
structure OutputBufferOps where
  appended : Bytes → Nat → UInt8

def OutputBufferOps.resize (ops : OutputBufferOps) (size : Nat) (buffer : Bytes) : Bytes :=
  buffer.take size ++
    (List.range' buffer.length (size - buffer.length)).map (ops.appended buffer)

/-- `erased_memory_writer`: the buffer up to its `size()`, and where the next write goes. -/
structure MemoryWriter where
  buffer : Bytes
  position : Nat := 0
  deriving DecidableEq, Repr

def initialCapacityBytes : Nat := 1024

def growLoop (requiredSize grownSize : Nat) (positive : 0 < grownSize) : Nat :=
  if grownSize < requiredSize then
    if half : grownSize > maxSize / 2 then requiredSize
    else growLoop requiredSize (grownSize * 2 % 2 ^ 64) (by simp only [maxSize] at half; omega)
  else grownSize
termination_by requiredSize - grownSize
decreasing_by simp only [maxSize] at half; omega

/-- A call either comes back or throws; the writer is there in both cases. -/
abbrev WriterM := EStateM String MemoryWriter

namespace MemoryWriter

def ensureCapacity (ops : OutputBufferOps) (additionalSize : Nat) : WriterM Unit := fun w =>
  match checkedRequiredCapacity w.position additionalSize with
  | .error e => .error e w
  | .ok requiredSize =>
      if requiredSize > w.buffer.length then
        let grownSize :=
          if h : w.buffer.length > 0 then growLoop requiredSize w.buffer.length h
          else growLoop requiredSize initialCapacityBytes (by decide)
        .ok () { w with buffer := ops.resize grownSize w.buffer }
      else .ok () w

def store (data : Bytes) : WriterM Unit := fun w =>
  .ok () ⟨writeAt w.buffer w.position data,w.position+data.length⟩

def write (ops : OutputBufferOps) (data : Bytes) : WriterM Nat := do
  ensureCapacity ops data.length
  if data.length > 0 then store data
  return data.length % 2 ^ 32

def writeInteger (ops : OutputBufferOps) (size value : Nat) : WriterM Unit := do
  let _ ← write ops (toBytes size value)

def seekp (pos : Nat) : WriterM Unit := fun w =>
  if pos > w.buffer.length then .error seekError w
  else .ok () { w with position := pos }

def tellp : WriterM Nat := fun w => .ok w.position w

def resize (ops : OutputBufferOps) (size : Nat) : WriterM Unit := fun w =>
  .ok () { w with buffer := ops.resize size w.buffer }

end MemoryWriter

def checkedSerializedSize (value : Nat) (what : String) : WriterM Nat :=
  if value > maxSize then throw (what ++ " exceeds this platform's size_t range")
  else return value

def MemoryWriter.writeQxHash (ops : OutputBufferOps) (value : UInt64) : WriterM Unit := do
  if value ≠ 0 then
    seekp headerHashPosition
    writeInteger ops 8 value.toNat

inductive WriterCall where
  | write (data : Bytes)
  | writeInteger (size value : Nat)
  | seekp (pos : Nat)

namespace MemoryWriter

variable (ops : OutputBufferOps)

def call : WriterCall → WriterM Unit
  | .write data => do let _ ← write ops data
  | .writeInteger size value => writeInteger ops size value
  | .seekp pos => seekp pos

def after (c : WriterCall) (w : MemoryWriter) : MemoryWriter :=
  match call ops c w with
  | .ok _ w => w
  | .error _ w => w

def reached : List WriterCall → MemoryWriter → MemoryWriter
  | [],w => w
  | c :: cs,w => reached cs (after ops c w)

/-- A sequence that seeks within the buffer only. -/
def SeeksWithin : List WriterCall → MemoryWriter → Prop
  | [],_ => True
  | c :: cs,w => (∀ pos, c = .seekp pos → pos ≤ w.buffer.length) ∧ SeeksWithin cs (after ops c w)

def writeAll : List Bytes → WriterM Unit
  | [] => pure ()
  | data :: sent => do
      let _ ← write ops data
      writeAll sent

end MemoryWriter

/-- `serialize_erased_impl`, where `write_qdata_object` writes `sent` and returns `hash`. -/
def serializeErasedImpl (ops : OutputBufferOps) (shuffle : Bool) (sent : List Bytes)
    (hash : UInt64) : WriterM Unit := do
  let _ ← MemoryWriter.write ops (qdataHeader shuffle)
  MemoryWriter.writeAll ops sent
  let endPosition ← MemoryWriter.tellp
  MemoryWriter.writeQxHash ops hash
  MemoryWriter.seekp endPosition
  let size ← checkedSerializedSize endPosition "serialized qdata size"
  MemoryWriter.resize ops size

def blockWrites (cp : Compressor) : Nat → List Bytes → List Bytes
  | _,[] => []
  | k,b :: bs => toBytes 4 (cp k b).zsize :: (cp k b).bytes :: blockWrites cp (k+1) bs

theorem blockWrites_flatten (cp : Compressor) (k : Nat) (blocks : List Bytes) :
    (blockWrites cp k blocks).flatten = emitBlocks cp k blocks := by
  induction blocks generalizing k with
  | nil => rfl
  | cons b bs ih => simp [blockWrites,emitBlocks,Compressed.emit,ih]

theorem growLoop_spec (requiredSize grownSize : Nat) (positive : 0 < grownSize)
    (hg : grownSize ≤ maxSize) (hr : requiredSize ≤ maxSize) :
    grownSize ≤ growLoop requiredSize grownSize positive ∧
    requiredSize ≤ growLoop requiredSize grownSize positive ∧
    growLoop requiredSize grownSize positive ≤ maxSize ∧
    (growLoop requiredSize grownSize positive = requiredSize ∨
      ∃ k < 64, growLoop requiredSize grownSize positive = grownSize * 2 ^ k) := by
  induction grownSize, positive using growLoop.induct requiredSize with
  | case1 grown positive hless half =>
    rw [growLoop,if_pos hless,dif_pos half]
    exact ⟨by omega,le_refl _,hr,.inl rfl⟩
  | case2 grown positive hless half ih =>
    have hdouble : grown * 2 % 2 ^ 64 = grown * 2 := by
      simp only [maxSize] at half
      omega
    have hle : grown * 2 % 2 ^ 64 ≤ maxSize := by
      simp only [maxSize]
      omega
    obtain ⟨hge,hreq,hmax,hshape⟩ := ih hle
    rw [growLoop,if_pos hless,dif_neg half]
    refine ⟨by omega,hreq,hmax,?_⟩
    rcases hshape with hshape | ⟨k,hk,hshape⟩
    · exact .inl hshape
    · right
      have hpow : grown * 2 % 2 ^ 64 * 2 ^ k = grown * 2 ^ (k+1) := by
        rw [hdouble,Nat.pow_succ,Nat.mul_assoc,Nat.mul_comm 2]
      refine ⟨k+1,?_,hshape.trans hpow⟩
      by_contra hlarge
      have hbig : 2 ^ 64 ≤ grown * 2 ^ (k+1) :=
        (Nat.pow_le_pow_right (by decide) (Nat.le_of_not_lt hlarge)).trans
          (Nat.le_mul_of_pos_left _ positive)
      rw [hshape,hpow,maxSize] at hmax
      omega
  | case3 grown positive hless =>
    rw [growLoop,if_neg hless]
    exact ⟨le_refl _,by omega,hg,.inr ⟨0,by decide,by simp⟩⟩

theorem checkedRequiredCapacity_eq {position : Nat} (h : position ≤ maxSize) (n : Nat) :
    checkedRequiredCapacity position n =
      if position+n ≤ maxSize then .ok (position+n) else .error addressableError := by
  have hroom : sub64 maxSize position = maxSize - position := by
    apply ReaderMemory.sub64_eq h
    simp [maxSize]
  rw [checkedRequiredCapacity,hroom]
  by_cases hn : position+n ≤ maxSize
  · have hwrap : (position+n) % 2 ^ 64 = position+n := by
      simp only [maxSize] at hn
      omega
    rw [if_neg (by omega),if_pos hn,hwrap]
  · rw [if_pos (by omega),if_neg hn]

namespace OutputBufferOps

variable (ops : OutputBufferOps) {size : Nat} {buffer : Bytes}

@[simp] theorem length_resize : (ops.resize size buffer).length = size := by
  simp [resize]
  omega

theorem resize_grows (h : buffer.length ≤ size) : buffer <+: ops.resize size buffer := by
  rw [resize,List.take_of_length_le h]
  exact List.prefix_append ..

theorem resize_cuts (h : size ≤ buffer.length) : ops.resize size buffer = buffer.take size := by
  have hnone : size - buffer.length = 0 := by omega
  simp [resize,hnone]

end OutputBufferOps

theorem writeAt_outside {out bs : Bytes} {offset i : Nat} (h : offset+bs.length ≤ out.length)
    (hi : ¬ (offset ≤ i ∧ i < offset+bs.length)) : (writeAt out offset bs)[i]? = out[i]? := by
  have htake : (out.take offset).length = offset := by
    rw [List.length_take]
    omega
  unfold writeAt
  by_cases hbefore : i < offset
  · rw [List.append_assoc,List.getElem?_append_left (by omega),List.getElem?_take_of_lt hbefore]
  · have hfront : (out.take offset ++ bs).length = offset+bs.length := by
      rw [List.length_append,htake]
    have hback : offset+bs.length+(i - (offset+bs.length)) = i := by omega
    rw [List.getElem?_append_right (by omega),hfront,List.getElem?_drop,hback]

namespace MemoryWriter

structure Fits (w : MemoryWriter) : Prop where
  position : w.position ≤ w.buffer.length
  size : w.buffer.length ≤ maxSize

structure Wrote (w : MemoryWriter) (data : Bytes) (w' : MemoryWriter) : Prop where
  position : w'.position = w.position+data.length
  grows : w.buffer.length ≤ w'.buffer.length
  room : w.position+data.length ≤ w'.buffer.length
  inside : (w'.buffer.drop w.position).take data.length = data
  outside : ∀ i, i < w.buffer.length → ¬ (w.position ≤ i ∧ i < w.position+data.length) →
    w'.buffer[i]? = w.buffer[i]?

section
variable (ops : OutputBufferOps) {w : MemoryWriter}

theorem ensureCapacity_throws (h : Fits w) {n : Nat} (hn : maxSize < w.position+n) :
    ensureCapacity ops n w = .error addressableError w := by
  rw [ensureCapacity,checkedRequiredCapacity_eq (h.position.trans h.size),
    if_neg (Nat.not_le.mpr hn)]

theorem ensureCapacity_room (h : Fits w) {n : Nat} (hn : w.position+n ≤ maxSize) :
    ∃ buffer, ensureCapacity ops n w = .ok () ⟨buffer,w.position⟩ ∧ w.buffer <+: buffer ∧
      w.position+n ≤ buffer.length ∧ buffer.length ≤ maxSize := by
  rw [ensureCapacity,checkedRequiredCapacity_eq (h.position.trans h.size),if_pos hn]
  by_cases hroom : w.position+n > w.buffer.length
  · by_cases hempty : w.buffer.length > 0
    · obtain ⟨hge,hreq,hmax,_⟩ := growLoop_spec (w.position+n) w.buffer.length hempty h.size hn
      simp only [hroom,hempty,if_true,dif_pos]
      exact ⟨_,rfl,ops.resize_grows hge,by simpa using hreq,by simpa using hmax⟩
    · obtain ⟨hge,hreq,hmax,_⟩ := growLoop_spec (w.position+n) initialCapacityBytes (by decide)
        (by simp [initialCapacityBytes,maxSize]) hn
      simp only [hroom,hempty,if_true,dif_neg,not_false_iff]
      exact ⟨_,rfl,ops.resize_grows (by omega),by simpa using hreq,by simpa using hmax⟩
  · simp only [hroom,if_false]
    exact ⟨w.buffer,rfl,List.prefix_refl _,by omega,h.size⟩

theorem write_throws (h : Fits w) (data : Bytes) (hn : maxSize < w.position+data.length) :
    write ops data w = .error addressableError w := by
  simp only [write,bind,EStateM.bind,ensureCapacity_throws ops h hn]

theorem write_stores (h : Fits w) (data : Bytes) (hn : w.position+data.length ≤ maxSize) :
    ∃ w', write ops data w = .ok (data.length % 2 ^ 32) w' ∧ Fits w' ∧ Wrote w data w' := by
  obtain ⟨buffer,hensure,hpre,hroom,hsize⟩ := ensureCapacity_room ops h hn
  have hgrows := hpre.length_le
  obtain ⟨more,rfl⟩ := hpre
  by_cases hdata : data.length > 0
  · refine ⟨⟨writeAt (w.buffer ++ more) w.position data,w.position+data.length⟩,?_,?_,?_⟩
    · simp [write,bind,EStateM.bind,hensure,hdata,store,pure,EStateM.pure]
    · constructor <;> simp only [length_writeAt hroom]
      · exact hroom
      · exact hsize
    · refine ⟨rfl,?_,?_,?_,?_⟩
      · simpa only [length_writeAt hroom] using hgrows
      · simpa only [length_writeAt hroom] using hroom
      · exact writeAt_inside (h.position.trans hgrows)
      · intro i hi hout
        rw [writeAt_outside hroom hout,List.getElem?_append_left hi]
  · have hnil : data = [] := List.length_eq_zero_iff.mp (by omega)
    subst hnil
    refine ⟨⟨w.buffer ++ more,w.position⟩,?_,⟨?_,hsize⟩,?_⟩
    · simp only [List.length_nil] at hensure
      simp [write,bind,EStateM.bind,hensure,pure,EStateM.pure]
    · exact h.position.trans hgrows
    · refine ⟨rfl,hgrows,hroom,by simp,?_⟩
      intro i hi hout
      rw [List.getElem?_append_left hi]

theorem Fits.write_cases (h : Fits w) (data : Bytes) :
    (maxSize < w.position+data.length ∧ MemoryWriter.write ops data w = .error addressableError w) ∨
    ∃ w', MemoryWriter.write ops data w = .ok (data.length % 2 ^ 32) w' ∧ Wrote w data w' := by
  by_cases hn : w.position+data.length ≤ maxSize
  · obtain ⟨w',hwrite,_,hwrote⟩ := write_stores ops h data hn
    exact .inr ⟨w',hwrite,hwrote⟩
  · exact .inl ⟨Nat.lt_of_not_le hn,write_throws ops h data (Nat.lt_of_not_le hn)⟩

/-- What a writer does and what a seekable file would hold: everything known of the file lies
in the buffer. -/
structure Refines (w : MemoryWriter) (f : Seekable.File UInt8) : Prop where
  fits : Fits w
  holds : Seekable.Holds w.buffer f.known
  position : w.position = f.position

theorem Wrote.refines {f : Seekable.File UInt8} {data : Bytes} {w' : MemoryWriter}
    (hwrote : Wrote w data w') (hfits : Fits w') (h : Refines w f) :
    Refines w' (f.write data) := by
  refine ⟨hfits,?_,?_⟩
  · rw [Seekable.File.write,← h.position]
    exact h.holds.place hwrote.inside hwrote.outside
  · rw [hwrote.position,h.position]
    rfl

theorem seekp_inside {pos : Nat} (hpos : pos ≤ w.buffer.length) :
    seekp pos w = .ok () { w with position := pos } := by
  rw [seekp,if_neg (Nat.not_lt.mpr hpos)]

theorem seekp_beyond {pos : Nat} (hpos : w.buffer.length < pos) :
    seekp pos w = .error seekError w := by
  rw [seekp,if_pos hpos]

theorem Refines.seek {f : Seekable.File UInt8} (h : Refines w f) {pos : Nat}
    (hpos : pos ≤ w.buffer.length) : Refines { w with position := pos } (f.seek pos) :=
  ⟨⟨hpos,h.fits.size⟩,h.holds,rfl⟩

def fileCall (f : Seekable.File UInt8) : WriterCall → Seekable.File UInt8
  | .write data => if f.position+data.length ≤ maxSize then f.write data else f
  | .writeInteger size value =>
      if f.position+size ≤ maxSize then f.write (toBytes size value) else f
  | .seekp pos => f.seek pos

theorem after_write (data : Bytes) (w : MemoryWriter) :
    after ops (.write data) w = match write ops data w with
      | .ok _ w => w
      | .error _ w => w := by
  simp only [after,call,bind,EStateM.bind]
  cases write ops data w <;> rfl

theorem after_writeInteger (size value : Nat) (w : MemoryWriter) :
    after ops (.writeInteger size value) w = after ops (.write (toBytes size value)) w := rfl

theorem Refines.write {f : Seekable.File UInt8} (h : Refines w f) (data : Bytes) :
    Refines (after ops (.write data) w)
      (if f.position+data.length ≤ maxSize then f.write data else f) := by
  rw [after_write]
  by_cases hn : w.position+data.length ≤ maxSize
  · obtain ⟨w',hwrite,hfits,hwrote⟩ := write_stores ops h.fits data hn
    rw [hwrite,if_pos (h.position ▸ hn)]
    exact hwrote.refines hfits h
  · rw [write_throws ops h.fits data (Nat.lt_of_not_le hn),if_neg (h.position ▸ hn)]
    exact h

theorem Refines.call {f : Seekable.File UInt8} (h : Refines w f) (c : WriterCall)
    (hseek : ∀ pos, c = .seekp pos → pos ≤ w.buffer.length) :
    Refines (after ops c w) (fileCall f c) := by
  cases c with
  | write data => exact h.write ops data
  | writeInteger size value =>
    rw [after_writeInteger,fileCall]
    simpa using h.write ops (toBytes size value)
  | seekp pos =>
    have hpos := hseek pos rfl
    rw [after,MemoryWriter.call,seekp_inside hpos]
    exact h.seek hpos

/-- So does any sequence of calls. -/
theorem Refines.calls {f : Seekable.File UInt8} {cs : List WriterCall} (h : Refines w f)
    (hseek : SeeksWithin ops cs w) : Refines (reached ops cs w) (cs.foldl fileCall f) := by
  induction cs generalizing w f with
  | nil => exact h
  | cons c cs ih => exact ih (h.call ops c hseek.1) hseek.2

theorem Fits.blank (h : Fits w) : Refines w ⟨fun _ => none,w.position⟩ := ⟨h,nofun,rfl⟩

theorem Fits.call (h : Fits w) (c : WriterCall) : Fits (after ops c w) := by
  cases c with
  | write data => exact (h.blank.write ops data).fits
  | writeInteger size value => exact (h.blank.write ops (toBytes size value)).fits
  | seekp pos =>
    rw [after,MemoryWriter.call]
    by_cases hpos : pos ≤ w.buffer.length
    · rw [seekp_inside hpos]
      exact ⟨hpos,h.size⟩
    · rw [seekp_beyond (Nat.lt_of_not_le hpos)]
      exact h

theorem Fits.reached {cs : List WriterCall} (h : Fits w) : Fits (reached ops cs w) := by
  induction cs generalizing w with
  | nil => exact h
  | cons c cs ih => exact ih (h.call ops c)

theorem writeAll_stores (sent : List Bytes) {f : Seekable.File UInt8} (h : Refines w f)
    (hn : w.position+sent.flatten.length ≤ maxSize) :
    ∃ w', writeAll ops sent w = .ok () w' ∧ Refines w' (f.write sent.flatten) := by
  induction sent generalizing w f with
  | nil => exact ⟨w,rfl,by simpa [Seekable.File.write] using h⟩
  | cons data sent ih =>
    simp only [List.flatten_cons,List.length_append] at hn
    obtain ⟨w₁,hwrite,hfits,hwrote⟩ := write_stores ops h.fits data (by omega)
    obtain ⟨w',hall,hw'⟩ := ih (hwrote.refines hfits h) (by rw [hwrote.position]; omega)
    refine ⟨w',?_,?_⟩
    · simp only [writeAll,bind,EStateM.bind,hwrite,hall]
    · rwa [List.flatten_cons,Seekable.File.write_append]

theorem writeAll_throws (sent : List Bytes) (h : Fits w)
    (hn : maxSize < w.position+sent.flatten.length) :
    ∃ w', writeAll ops sent w = .error addressableError w' := by
  induction sent generalizing w with
  | nil =>
    have hle := h.position.trans h.size
    simp only [List.flatten_nil,List.length_nil] at hn
    omega
  | cons data sent ih =>
    simp only [writeAll,bind,EStateM.bind]
    by_cases hdata : w.position+data.length ≤ maxSize
    · obtain ⟨w₁,hwrite,hfits,hwrote⟩ := write_stores ops h data hdata
      rw [hwrite]
      apply ih hfits
      rw [hwrote.position]
      simpa [Nat.add_assoc] using hn
    · rw [write_throws ops h data (Nat.lt_of_not_le hdata)]
      exact ⟨w,rfl⟩

end

end MemoryWriter

section
variable (ops : OutputBufferOps) (shuffle : Bool) {sent : List Bytes} (hash : UInt64)

theorem place_hash (out : Bytes) :
    Seekable.place (fun i => (storedHeader shuffle 0 ++ out)[i]?) headerHashPosition
        (toBytes 8 hash.toNat) = fun i => (storedHeader shuffle hash ++ out)[i]? :=
  Seekable.place_over (qdataMagicBits ++ [qdataCurrentFormatVer,zstdCompressionFlag,
    littleEndianFlag,if shuffle then yesShuffleFlag else noShuffleFlag] ++ List.replicate 8 0)
    (toBytes 8 0) out (toBytes 8 hash.toNat) (by simp)

theorem MemoryWriter.writeQxHash_stores {w : MemoryWriter} {out : Bytes}
    (h : Refines w ⟨fun i => (storedHeader shuffle 0 ++ out)[i]?,
      (storedHeader shuffle 0 ++ out).length⟩) :
    ∃ w', writeQxHash ops hash w = .ok () w' ∧ w.position ≤ w'.buffer.length ∧
      Seekable.Holds w'.buffer fun i => (storedHeader shuffle hash ++ out)[i]? := by
  by_cases hz : hash = 0
  · subst hz
    exact ⟨w,rfl,h.fits.position,h.holds⟩
  · have hlen : 24 ≤ w.buffer.length := by
      have hle := h.fits.position
      rw [h.position] at hle
      simp only [List.length_append,length_storedHeader] at hle
      omega
    have hseek : headerHashPosition ≤ w.buffer.length := by
      simp only [headerHashPosition]
      omega
    have hsought := h.seek hseek
    obtain ⟨w',hwrite,hfits,hwrote⟩ := write_stores ops hsought.fits
      (toBytes 8 hash.toNat) (by simp [headerHashPosition,maxSize])
    refine ⟨w',?_,h.fits.position.trans hwrote.grows,?_⟩
    · simp [writeQxHash,hz,bind,EStateM.bind,seekp_inside hseek,writeInteger,hwrite,pure,
        EStateM.pure]
    · have hw' := (hwrote.refines hfits hsought).holds
      rwa [Seekable.File.write,Seekable.File.seek,place_hash] at hw'

variable {buffer : Bytes}

theorem serializeErasedImpl_start (hb : buffer.length ≤ maxSize) :
    ∃ w n, MemoryWriter.write ops (qdataHeader shuffle) ⟨buffer,0⟩ = .ok n w ∧
      w.Refines ⟨fun i => (storedHeader shuffle 0)[i]?,(storedHeader shuffle 0).length⟩ := by
  have hblank : MemoryWriter.Refines ⟨buffer,0⟩ .blank := ⟨⟨Nat.zero_le _,hb⟩,nofun,rfl⟩
  have hheader : 0+(qdataHeader shuffle).length ≤ maxSize := by
    simp [qdataHeader_eq,maxSize]
  obtain ⟨w,hwrite,hfits,hwrote⟩ := MemoryWriter.write_stores ops hblank.fits _ hheader
  have hw := hwrote.refines hfits hblank
  rw [Seekable.File.write_blank,qdataHeader_eq] at hw
  exact ⟨w,_,hwrite,hw⟩

/-- The buffer ends up with the file's bytes and no others, whatever lay in it. -/
theorem serializeErasedImpl_returns (hb : buffer.length ≤ maxSize)
    (hn : 24+sent.flatten.length ≤ maxSize) :
    ∃ w, serializeErasedImpl ops shuffle sent hash ⟨buffer,0⟩ = .ok () w ∧
      w.buffer = savedBytes shuffle sent.flatten hash := by
  obtain ⟨w,n,hstart,hw⟩ := serializeErasedImpl_start ops shuffle hb
  obtain ⟨w₁,hall,hw₁⟩ := MemoryWriter.writeAll_stores ops sent hw
    (by rw [hw.position]; simpa using hn)
  rw [Seekable.File.write_end] at hw₁
  obtain ⟨w₂,hhash,hgrown,hholds⟩ := MemoryWriter.writeQxHash_stores ops shuffle hash hw₁
  have hend : w₁.position = (storedHeader shuffle hash ++ sent.flatten).length := by
    rw [hw₁.position]
    simp
  have hmax : ¬ w₁.position > maxSize :=
    Nat.not_lt.mpr (hw₁.fits.position.trans hw₁.fits.size)
  refine ⟨⟨ops.resize w₁.position w₂.buffer,w₁.position⟩,?_,?_⟩
  · simp [serializeErasedImpl,bind,EStateM.bind,hstart,hall,MemoryWriter.tellp,hhash,
      MemoryWriter.seekp_inside hgrown,checkedSerializedSize,hmax,MemoryWriter.resize,pure,
      EStateM.pure]
  · rw [ops.resize_cuts hgrown,hend,hholds.take]
    exact (writeQxHash_bytes shuffle sent.flatten hash).symm

theorem serializeErasedImpl_throws (hb : buffer.length ≤ maxSize)
    (hn : maxSize < 24+sent.flatten.length) :
    ∃ w, serializeErasedImpl ops shuffle sent hash ⟨buffer,0⟩ = .error addressableError w := by
  obtain ⟨w,n,hstart,hw⟩ := serializeErasedImpl_start ops shuffle hb
  obtain ⟨w₁,hall⟩ := MemoryWriter.writeAll_throws ops sent hw.fits
    (by rw [hw.position]; simpa using hn)
  refine ⟨w₁,?_⟩
  simp [serializeErasedImpl,bind,EStateM.bind,hstart,hall]

end

section
variable {z : Zstd} {xxh : Bytes → UInt64} {compressLevel : Int} {shuffle : Bool}
  {maxDepth : Nat} {v : Value} {nthreads : Int} {out : Bytes} {hash : UInt64}

theorem Returns.blockWrites
    (h : Returns z xxh compressLevel shuffle maxDepth v nthreads out hash) :
    (blockWrites (z.compressor shuffle compressLevel) 0
      (blocksOf [] (streamWrite maxDepth v).pushed)).flatten = out := by
  rw [blockWrites_flatten,h.stream.2.1]

theorem Returns.single_thread
    (h : Returns z xxh compressLevel shuffle maxDepth v nthreads out hash) :
    writeQdataObject z xxh compressLevel shuffle maxDepth v = ⟨out,.ok hash⟩ := by
  have hstream := h.stream
  cases h with
  | single one written => exact written
  | multi more valid run ended =>
    obtain ⟨he,hout,hhash⟩ := hstream
    rw [writeQdataObject_ok valid he,hhash,hout]

theorem Returns.saved (h : Returns z xxh compressLevel shuffle maxDepth v nthreads out hash)
    (path : String) (prior : Option Bytes) :
    saveErased z xxh compressLevel shuffle maxDepth v path true prior =
      ⟨some (savedBytes shuffle out hash),none⟩ := by
  simp [saveErased,h.single_thread,savedBytes]

end

/-- The memory writer is a seekable file: after any calls a write throws and changes nothing,
or changes its range and nothing else, and what `serialize` returns is what `save` leaves in
a file, whatever the buffer held before. -/
theorem memory_writer_is_file (ops : OutputBufferOps) :
    (∀ requiredSize grownSize positive, grownSize ≤ maxSize → requiredSize ≤ maxSize →
      grownSize ≤ growLoop requiredSize grownSize positive ∧
      requiredSize ≤ growLoop requiredSize grownSize positive ∧
      growLoop requiredSize grownSize positive ≤ maxSize ∧
      (growLoop requiredSize grownSize positive = requiredSize ∨
        ∃ k < 64, growLoop requiredSize grownSize positive = grownSize * 2 ^ k)) ∧
    (∀ buffer : Bytes, buffer.length ≤ maxSize → ∀ cs w,
      MemoryWriter.reached ops cs ⟨buffer,0⟩ = w →
      w.position ≤ w.buffer.length ∧ w.buffer.length ≤ maxSize ∧
      (∀ n, maxSize < w.position+n →
        MemoryWriter.ensureCapacity ops n w = .error addressableError w) ∧
      (∀ n, w.position+n ≤ maxSize → ∃ grown,
        MemoryWriter.ensureCapacity ops n w = .ok () ⟨grown,w.position⟩ ∧ w.buffer <+: grown ∧
          w.position+n ≤ grown.length ∧ grown.length ≤ maxSize) ∧
      (∀ data, (maxSize < w.position+data.length ∧
          MemoryWriter.write ops data w = .error addressableError w) ∨
        ∃ w', MemoryWriter.write ops data w = .ok (data.length % 2 ^ 32) w' ∧
          w.Wrote data w') ∧
      (∀ size value, (maxSize < w.position+size ∧
          MemoryWriter.writeInteger ops size value w = .error addressableError w) ∨
        ∃ w', MemoryWriter.writeInteger ops size value w = .ok () w' ∧
          w.Wrote (toBytes size value) w') ∧
      (∀ pos ≤ w.buffer.length, MemoryWriter.seekp pos w = .ok () { w with position := pos }) ∧
      (MemoryWriter.SeeksWithin ops cs ⟨buffer,0⟩ →
        w.Refines (cs.foldl MemoryWriter.fileCall ⟨fun i => buffer[i]?,0⟩))) ∧
    (∀ z xxh compressLevel shuffle maxDepth v nthreads out hash,
      Returns z xxh compressLevel shuffle maxDepth v nthreads out hash →
      (blockWrites (z.compressor shuffle compressLevel) 0
        (blocksOf [] (streamWrite maxDepth v).pushed)).flatten = out ∧
      ∀ sent, sent.flatten = out → ∀ buffer : Bytes, buffer.length ≤ maxSize →
        (24+out.length ≤ maxSize →
          ∃ w, serializeErasedImpl ops shuffle sent hash ⟨buffer,0⟩ = .ok () w ∧
            w.buffer.length = 24+out.length ∧
            (∀ n out' hash', Returns z xxh compressLevel shuffle maxDepth v n out' hash' →
              w.buffer = savedBytes shuffle out' hash') ∧
            ∀ path prior, saveErased z xxh compressLevel shuffle maxDepth v path true prior =
              ⟨some w.buffer,none⟩) ∧
        (maxSize < 24+out.length →
          ∃ w, serializeErasedImpl ops shuffle sent hash ⟨buffer,0⟩ =
            .error addressableError w)) := by
  refine ⟨growLoop_spec,?_,?_⟩
  · intro buffer hb cs w hw
    have hstart : MemoryWriter.Fits ⟨buffer,0⟩ := ⟨Nat.zero_le _,hb⟩
    have hfits : w.Fits := hw ▸ hstart.reached ops
    have hwrite := hfits.write_cases ops
    refine ⟨hfits.position,hfits.size,fun n => MemoryWriter.ensureCapacity_throws ops hfits,
      fun n => MemoryWriter.ensureCapacity_room ops hfits,hwrite,?_,
      fun pos => MemoryWriter.seekp_inside,?_⟩
    · intro size value
      simp only [MemoryWriter.writeInteger,bind,EStateM.bind]
      rcases hwrite (toBytes size value) with ⟨hn,hthrow⟩ | ⟨w',hstore,hwrote⟩
      · rw [hthrow]
        exact .inl ⟨by simpa using hn,rfl⟩
      · rw [hstore]
        exact .inr ⟨w',rfl,hwrote⟩
    · intro hseek
      have hfile : MemoryWriter.Refines ⟨buffer,0⟩ ⟨fun i => buffer[i]?,0⟩ :=
        ⟨hstart,fun i x hx => hx,rfl⟩
      exact hw ▸ hfile.calls ops hseek
  · intro z xxh compressLevel shuffle maxDepth v nthreads out hash h
    refine ⟨h.blockWrites,?_⟩
    rintro sent rfl buffer hb
    refine ⟨fun hn => ?_,serializeErasedImpl_throws ops shuffle hash hb⟩
    obtain ⟨w,hw,hbuffer⟩ := serializeErasedImpl_returns ops shuffle hash hb hn
    refine ⟨w,hw,?_,?_,?_⟩
    · rw [hbuffer,savedBytes,writeQxHash_bytes]
      simp
    · intro n out' hash' h'
      have hsame := h.single_thread.symm.trans h'.single_thread
      cases hsame
      exact hbuffer
    · intro path prior
      rw [h.saved,hbuffer]

end QData
