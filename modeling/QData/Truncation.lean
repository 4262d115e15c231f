import QData.QdataFile
import QData.WriterDiscipline
import QData.BlockRoundtrip
import QData.ObjectCodec
/-! Streams that end early: what is left of a serialized object, and what a failed save
leaves behind, do not read as an object. -/
set_option autoImplicit false

namespace QData
open Words Requests

/-- Without the end of an encoding nothing is read back, whatever the reader's limit. -/
theorem streamRead_front {v : Value} {maxDepth : Nat}
    (h : (streamWrite maxDepth v).error = none) {front back : Bytes}
    (hsplit : front ++ back = pushedBytes (streamWrite maxDepth v).pushed) (hback : back ≠ [])
    (d : Nat) : Incomplete (streamRead d) front := by
  cases hr : (streamRead d).run channel front with
  | error e => exact ⟨e,hr⟩
  | ok x =>
    obtain ⟨o,s⟩ := x
    have hd : d ≠ 0 := by
      rintro rfl
      cases hr
    -- a reader that is content with the front leaves the back unread
    have hext := run_channel_extend hr back
    have hwritten := streamRead_written h hd []
    rw [List.append_nil,← hsplit,hext] at hwritten
    split at hwritten
    · simp only [Except.ok.injEq,Prod.mk.injEq,List.append_eq_nil_iff] at hwritten
      exact absurd hwritten.2.2 hback
    · cases hwritten

theorem streamRead_nil (d : Nat) : Incomplete (streamRead d) [] := by
  have hnil : (streamWrite 1 .nil).error = none := rfl
  exact streamRead_front hnil (List.nil_append _) (by decide) d

theorem blocks_front {v : Value} {maxDepth : Nat}
    (h : (streamWrite maxDepth v).error = none) {j : Nat}
    (hj : j < (blocksOf [] (streamWrite maxDepth v).pushed).length) (d : Nat) :
    Incomplete (streamRead d)
      ((blocksOf [] (streamWrite maxDepth v).pushed).take j).flatten := by
  have hs := blocksOf_sizes (Nat.zero_le _) (streamWrite_inBounds maxDepth v)
  have hflat := blocksOf_flatten [] (streamWrite maxDepth v).pushed
  generalize blocksOf [] (streamWrite maxDepth v).pushed = blocks at *
  have hsplit : (blocks.take j).flatten ++ (blocks.drop j).flatten =
      pushedBytes (streamWrite maxDepth v).pushed := by
    rw [← List.flatten_append,List.take_append_drop,hflat,List.nil_append]
  refine streamRead_front h hsplit (fun hnil => ?_) d
  rw [hnil,List.append_nil] at hsplit
  have hle := hs.flatten_take (j := j) (by rw [hsplit,hflat,List.nil_append])
  omega

/-- What cannot be read off the contents of a stream's blocks cannot be read off it. -/
theorem readSingleThread_incomplete {dp : Decompressor} {stream : Bytes} {d : Nat}
    (h : Incomplete (streamRead d) ((streamSource dp).feed stream).bytes) :
    ∃ e, readSingleThread dp stream d = .error e := by
  rw [readSingleThread_eq]
  cases hr : readFeed (streamRead d) ((streamSource dp).feed stream) with
  | error e => exact ⟨e,rfl⟩
  | ok x =>
    obtain ⟨e,he⟩ := h
    rw [readFeed_channel (a := x.1) (c := x.2) hr] at he
    cases he

section
variable {z : Zstd} {xxh : Bytes → UInt64}

theorem readQdataObject_incomplete {stream : Bytes} {d : Nat}
    (h : ∀ header, readQdataHeader stream = .ok (header,stream.drop 24) →
      Incomplete (streamRead d)
        ((streamSource (z.decompressor header.shuffle)).feed (stream.drop 24)).bytes)
    (validateChecksum : Bool) :
    ∃ e, readQdataObject z xxh validateChecksum d stream = .error e := by
  rw [readQdataObject]
  cases hheader : readQdataHeader stream with
  | error e => exact ⟨e,rfl⟩
  | ok x =>
    obtain ⟨header,rest⟩ := x
    have hrest := readQdataHeader_rest hheader
    subst hrest
    simp only
    split
    · exact ⟨_,rfl⟩
    · split
      · exact ⟨_,rfl⟩
      · exact readSingleThread_incomplete (h header hheader)

theorem readQdataObject_stored {shuffle : Bool} {hash : UInt64} {rest : Bytes} {d : Nat}
    (h : Incomplete (streamRead d)
      ((streamSource (z.decompressor shuffle)).feed rest).bytes) (validateChecksum : Bool) :
    ∃ e, readQdataObject z xxh validateChecksum d (storedHeader shuffle hash ++ rest) =
      .error e := by
  refine readQdataObject_incomplete (fun header hheader => ?_) validateChecksum
  have hstored := readQdataHeader_stored shuffle hash rest
  rw [hheader] at hstored
  obtain ⟨rfl,hrest⟩ := Prod.mk.inj (Except.ok.inj hstored)
  rw [hrest]
  exact h

variable {compressLevel : Int} {shuffle : Bool} {maxDepth : Nat} {v : Value}

/-- Whatever is cut off the end of a serialized value, reading the rest throws, also when
the checksum is not validated. -/
theorem truncation_detected (hz : z.Inverts)
    (hlevel : z.minCLevel ≤ compressLevel ∧ compressLevel ≤ z.maxCLevel)
    (hv : v.WithinLimits) (hdepth : v.depth ≤ maxDepth) (nthreads : Int) :
    (∃ bytes, Serializes z xxh compressLevel shuffle maxDepth v nthreads bytes) ∧
      ∀ bytes, Serializes z xxh compressLevel shuffle maxDepth v nthreads bytes →
        ∀ p, p <+: bytes → p ≠ bytes → ∀ d, ∃ e, deserializeImpl z xxh false d p = .error e := by
  have hne : maxDepth ≠ 0 := by
    have hpos := v.depth_pos hv
    omega
  have he := streamWrite_error.mpr ⟨hne,hv,hdepth⟩
  refine ⟨?_,?_⟩
  · obtain ⟨out,hash,hreturns⟩ := returns_exists xxh shuffle
      (validateWriteArguments_eq_none.mpr hlevel) he nthreads
    exact ⟨_,out,hash,hreturns,rfl⟩
  · rintro bytes ⟨out,hash,hreturns,rfl⟩ p ⟨tail,hp⟩ hproper d
    have htail : tail ≠ [] := by
      rintro rfl
      rw [List.append_nil] at hp
      exact hproper hp
    rw [serializedBytes_eq] at hp
    by_cases hlong : 24 ≤ p.length
    · -- the header is whole, and some block is missing or cut
      have hheader : p.take 24 = storedHeader shuffle hash := by
        have htake := congrArg (List.take 24) hp
        rwa [List.take_append_of_le_length hlong,List.take_left' (by simp)] at htake
      obtain ⟨rest,rfl⟩ : ∃ rest, p = storedHeader shuffle hash ++ rest :=
        ⟨p.drop 24,by rw [← hheader,List.take_append_drop]⟩
      rw [List.append_assoc,List.append_cancel_left_eq] at hp
      rw [hreturns.stream.2.1] at hp
      have hs := blocksOf_sizes (Nat.zero_le _) (streamWrite_inBounds maxDepth v)
      obtain ⟨j,hcontents,hj⟩ := feed_front (hz.lossless shuffle compressLevel) hs 0 hp
      refine readQdataObject_stored ?_ false
      rw [Feed.bytes,← Feed.contents,hcontents]
      exact blocks_front he (Nat.lt_of_not_le fun hall => htail (hj hall).1) d
    · -- nothing lies behind the part of the header that is left
      refine readQdataObject_incomplete (fun header _ => ?_) false
      rw [List.drop_of_length_le (by omega),feed_nil]
      exact streamRead_nil d

def threeMillion : Value := .vector .direct (.raw (List.replicate 3000000 7)) []

theorem threeMillion_limits : threeMillion.WithinLimits := by
  refine ⟨?_,trivial,Nat.zero_le _,trivial⟩
  change (List.replicate 3000000 (7 : UInt8)).length ≤ maxRCompatibleVectorLength
  rw [List.length_replicate]
  decide

/-- Serialized on four threads and cut in the middle. -/
theorem truncation_detected_halved : ∃ bytes,
    Serializes storedZstd (fun _ => 5) 3 true 1 threeMillion 4 bytes ∧
      ∃ e, deserializeImpl storedZstd (fun _ => 5) false 1 (bytes.take (bytes.length/2)) =
        .error e := by
  obtain ⟨⟨bytes,out,hash,hreturns,hbytes⟩,hcut⟩ := @truncation_detected storedZstd
    (fun _ => 5) 3 true 1 threeMillion storedZstd_inverts (by decide) threeMillion_limits
    (Nat.le_refl 1) 4
  have hlong : 24 ≤ bytes.length := by
    rw [hbytes,serializedBytes_eq,List.length_append,length_storedHeader]
    omega
  have hserializes : Serializes storedZstd (fun _ => 5) 3 true 1 threeMillion 4 bytes :=
    ⟨out,hash,hreturns,hbytes⟩
  refine ⟨bytes,hserializes,hcut bytes hserializes _ (List.take_prefix _ _) (fun hsame => ?_) 1⟩
  have hlen := congrArg List.length hsame
  rw [List.length_take] at hlen
  omega

theorem blocks_cut {e : String} (h : (streamWrite maxDepth v).error = some e) (j : Nat)
    (d : Nat) : Incomplete (streamRead d)
      ((cutCalls [] (streamWrite maxDepth v).pushed).1.take j).flatten := by
  have hflat := cutCalls_flatten [] (streamWrite maxDepth v).pushed
  generalize cutCalls [] (streamWrite maxDepth v).pushed = cut at *
  have hsplit : (cut.1.take j).flatten ++ ((cut.1.drop j).flatten ++ cut.2) =
      pushedBytes (streamWrite maxDepth v).pushed := by
    rw [← List.append_assoc,← List.flatten_append,List.take_append_drop,hflat,List.nil_append]
  have hcut := streamRead_cut h d
  rw [← hsplit] at hcut
  exact hcut.of_append

/-- When a save that had opened its path throws, the file it leaves does not read as any
object, with or without its checksum. -/
theorem failed_save_unreadable (hz : z.Inverts) {path : String} {prior : Option Bytes} {msg : String}
    (h : (saveErased z xxh compressLevel shuffle maxDepth v path true prior).error = some msg)
    (validateChecksum : Bool) (d : Nat) :
    ∃ e, readFileImpl z xxh validateChecksum d path
      (saveErased z xxh compressLevel shuffle maxDepth v path true prior).file = .error e := by
  obtain ⟨blocks,hfile,hblocks⟩ := saveErased_failed h
  rw [hfile]
  refine readQdataObject_stored ?_ validateChecksum
  rcases hblocks with rfl | ⟨rfl,he⟩
  · rw [emitBlocks_nil,feed_nil]
    exact streamRead_nil d
  · have hsizes := blocksOf_sizes (Nat.zero_le _) (streamWrite_inBounds maxDepth v)
    have hs : BlockSizes (cutCalls [] (streamWrite maxDepth v).pushed).1 :=
      fun b hb => hsizes b (List.mem_append_left _ hb)
    obtain ⟨j,hcontents,_⟩ := feed_front (hz.lossless shuffle compressLevel) hs 0 (List.append_nil _)
    rw [Feed.bytes,← Feed.contents,hcontents]
    exact blocks_cut he j d

/-- A list whose second element has no target, saved over a file. -/
theorem failed_save_unreadable_list :
    ∃ e, readFileImpl storedZstd (fun _ => 5) false defaultQdataMaxNestingDepth "x.qdata"
      (saveErased storedZstd (fun _ => 5) 3 true defaultQdataMaxNestingDepth
        (.list [.nil,.uninitialized] []) "x.qdata" true (some [0x01])).file = .error e :=
  failed_save_unreadable (z := storedZstd) storedZstd_inverts rfl false defaultQdataMaxNestingDepth

end

end QData
