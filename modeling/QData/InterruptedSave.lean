import QData.FileRoundtrip
/-! A save that the stream or the process stops on the way: what its file holds then reads as
the value that was being saved, or as nothing. -/
set_option autoImplicit false

namespace QData
open Words Requests

section
variable (z : Zstd) (xxh : Bytes → UInt64) (compressLevel : Int) (shuffle : Bool)
  (maxDepth : Nat) (v : Value) (nthreads : Int)

/-- What the block writer of a save hands to its stream: on one thread all that it is going
to, on several what the writer node has come to by some moment. -/
inductive Sending : Bytes → Prop
  | single (one : nthreads ≤ 1) :
      Sending (writeQdataObject z xxh compressLevel shuffle maxDepth v).out
  | refused {msg : String} (more : 1 < nthreads)
      (invalid : validateWriteArguments z compressLevel = some msg) : Sending []
  | multi {s : WriterPipeline} (more : 1 < nthreads)
      (valid : validateWriteArguments z compressLevel = none)
      (run : WriterRuns (z.compressor shuffle compressLevel) xxh true
        (streamWrite maxDepth v).error (streamWrite maxDepth v).pushed s)
      (inside : ∀ msg, s.phase ≠ .thrown msg) : Sending s.out

/-- What lies in the file where a save was stopped. The stream gets its bytes in order, so
that is the first of those sent, or all of them and the first of the checksum, which goes
over the header's. -/
inductive Interrupted : Bytes → Prop
  | sending {out : Bytes}
      (sending : Sending z xxh compressLevel shuffle maxDepth v nthreads out) (n : Nat) :
      Interrupted (((writeQdataHeader shuffle {}).write out).bytes.take n)
  | hashing {out : Bytes} {hash : UInt64}
      (returned : Returns z xxh compressLevel shuffle maxDepth v nthreads out hash) (n : Nat) :
      Interrupted ((((writeQdataHeader shuffle {}).write out).seekp headerHashPosition).write
        ((toBytes 8 hash.toNat).take n)).bytes

end

/-- The blocks that a write completes: where it meets a limit, those cut before. -/
def writtenBlocks (maxDepth : Nat) (v : Value) : List Bytes :=
  match (streamWrite maxDepth v).error with
  | none => blocksOf [] (streamWrite maxDepth v).pushed
  | some _ => (cutCalls [] (streamWrite maxDepth v).pushed).1

theorem writtenBlocks_sizes (maxDepth : Nat) (v : Value) : BlockSizes (writtenBlocks maxDepth v) := by
  have hs := blocksOf_sizes (Nat.zero_le _) (streamWrite_inBounds maxDepth v)
  rw [writtenBlocks]
  cases (streamWrite maxDepth v).error with
  | none => exact hs
  | some msg => exact fun b hb => hs b (List.mem_append_left _ hb)

theorem cut_written {maxDepth : Nat} {v : Value} {made rest : List PushOp}
    (h : (streamWrite maxDepth v).pushed = made ++ rest) :
    (cutCalls [] made).1 <+: writtenBlocks maxDepth v := by
  have hcut : (cutCalls [] made).1 <+: (cutCalls [] (streamWrite maxDepth v).pushed).1 := by
    rw [h,cutCalls_append]
    exact List.prefix_append _ _
  rw [writtenBlocks]
  cases (streamWrite maxDepth v).error with
  | none => exact hcut.trans (List.prefix_append _ _)
  | some msg => exact hcut

theorem emitBlocks_front (cp : Compressor) (k : Nat) {xs ys : List Bytes} (h : xs <+: ys) :
    emitBlocks cp k xs <+: emitBlocks cp k ys := by
  obtain ⟨more,rfl⟩ := h
  rw [emitBlocks_append]
  exact List.prefix_append _ _

section
variable {z : Zstd} {xxh : Bytes → UInt64} {compressLevel : Int} {shuffle : Bool}
  {maxDepth : Nat} {v : Value} {nthreads : Int} {out : Bytes} {hash : UInt64}

theorem Sending.front (h : Sending z xxh compressLevel shuffle maxDepth v nthreads out) :
    out <+: emitBlocks (z.compressor shuffle compressLevel) 0 (writtenBlocks maxDepth v) := by
  cases h with
  | refused more invalid => exact List.nil_prefix
  | single one =>
    rw [writeQdataObject]
    cases hz : validateWriteArguments z compressLevel with
    | some msg => exact List.nil_prefix
    | none =>
      simp only [writeSingleThread,writtenBlocks]
      cases he : (streamWrite maxDepth v).error with
      | none =>
        simp only [BlockWriter.finish_eq]
        exact List.prefix_rfl
      | some msg =>
        simp only [BlockWriter.pushAll_eq,BlockWriter.sent,List.nil_append]
        exact List.prefix_rfl
  | @multi s more valid run inside =>
    obtain ⟨blocks,hc,ha⟩ := WriterInv.run run
    rw [hc.out]
    refine emitBlocks_front _ 0 ((List.take_prefix _ _).trans ?_)
    have hended : s.phase = .waiting ∨ (∃ hash, s.phase = .finished hash) →
        (streamWrite maxDepth v).error = none := by
      intro hphase
      by_contra hne
      obtain ⟨msg,he⟩ := Option.ne_none_iff_exists'.mp hne
      rw [he] at run
      rcases run.not_finished with h | h <;>
        rcases hphase with h' | ⟨hash,h'⟩ <;> rw [h] at h' <;> cases h'
    cases hphase : s.phase with
    | pushing =>
      simp only [Accounts,hphase] at ha
      obtain ⟨made,hmade,hcut⟩ := ha
      have hfront := cut_written hmade
      rwa [hcut] at hfront
    | thrown msg => exact absurd hphase (inside msg)
    | waiting =>
      simp only [Accounts,hphase] at ha
      simp only [writtenBlocks,hended (.inl hphase),ha,List.prefix_rfl]
    | finished hash =>
      simp only [Accounts,hphase] at ha
      simp only [writtenBlocks,hended (.inr ⟨hash,hphase⟩),ha.1,List.prefix_rfl]

theorem Returns.written (h : Returns z xxh compressLevel shuffle maxDepth v nthreads out hash) :
    out = emitBlocks (z.compressor shuffle compressLevel) 0 (writtenBlocks maxDepth v) := by
  obtain ⟨he,hout,_⟩ := h.stream
  rw [writtenBlocks,he,hout]

def headerFront (shuffle : Bool) : Bytes :=
  qdataMagicBits ++ [qdataCurrentFormatVer,zstdCompressionFlag,littleEndianFlag,
    if shuffle then yesShuffleFlag else noShuffleFlag] ++ List.replicate 8 0

@[simp] theorem length_headerFront (shuffle : Bool) :
    (headerFront shuffle).length = headerHashPosition := rfl

theorem storedHeader_front (shuffle : Bool) (hash : UInt64) :
    storedHeader shuffle hash = headerFront shuffle ++ toBytes 8 hash.toNat := rfl

theorem hashing_bytes (shuffle : Bool) (out : Bytes) (hash : UInt64) (n : Nat) :
    ∃ stored : UInt64, ((((writeQdataHeader shuffle {}).write out).seekp headerHashPosition).write
      ((toBytes 8 hash.toNat).take n)).bytes = storedHeader shuffle stored ++ out := by
  have hlen : ((toBytes 8 hash.toNat).take n ++ List.replicate (8-n) 0).length = 8 := by
    simp only [List.length_append,List.length_take,length_toBytes,List.length_replicate]
    omega
  generalize hbits : (toBytes 8 hash.toNat).take n ++ List.replicate (8-n) 0 = bits at hlen
  have hlt : toNat bits < 2 ^ 64 := by
    have h := toNat_lt bits
    rwa [hlen] at h
  have hstored : toBytes 8 (UInt64.ofNat (toNat bits)).toNat = bits := by
    rw [UInt64.toNat_ofNat_of_lt' hlt,← hlen,toBytes_toNat]
  have hblank : toBytes 8 (0 : UInt64).toNat =
      List.replicate (min n 8) 0 ++ List.replicate (8-n) 0 := by
    rw [List.replicate_append_replicate,show min n 8+(8-n) = 8 by omega]
    rfl
  have hwrite := OutStream.write_inside (headerFront shuffle) (List.replicate (min n 8) 0)
    (List.replicate (8-n) 0 ++ out) ((toBytes 8 hash.toNat).take n) (by simp)
  refine ⟨UInt64.ofNat (toNat bits),?_⟩
  rw [writeQdataHeader_write,OutStream.seekp,storedHeader_front,storedHeader_front,hstored,hblank,
    ← hbits]
  simpa only [List.append_assoc,length_headerFront] using hwrite

theorem Interrupted.front {file : Bytes}
    (h : Interrupted z xxh compressLevel shuffle maxDepth v nthreads file) :
    ∃ stored, file <+: storedHeader shuffle stored ++
      emitBlocks (z.compressor shuffle compressLevel) 0 (writtenBlocks maxDepth v) := by
  cases h with
  | sending sending n =>
    refine ⟨0,(List.take_prefix _ _).trans ?_⟩
    rw [writeQdataHeader_write]
    exact (List.prefix_append_right_inj _).mpr sending.front
  | hashing returned n =>
    obtain ⟨stored,hbytes⟩ := hashing_bytes shuffle _ _ n
    exact ⟨stored,[],by rw [List.append_nil,hbytes,← returned.written]⟩

theorem contents_short {file : Bytes} (h : file.length ≤ 24) : contents z file = [] := by
  rw [contents]
  cases hheader : readQdataHeader file with
  | error e => rfl
  | ok x =>
    simp only
    rw [readQdataHeader_rest hheader,List.drop_of_length_le h,feed_nil]
    rfl

/-- Nothing of a value can be read off a file that is not all there; off all of it, with
whatever checksum, only the value. -/
theorem front_contents (hz : z.Inverts) {stored : UInt64} {file : Bytes}
    (h : file <+: storedHeader shuffle stored ++
      emitBlocks (z.compressor shuffle compressLevel) 0 (writtenBlocks maxDepth v)) (d : Nat) :
    Incomplete (streamRead d) (contents z file) ∨
      ((streamWrite maxDepth v).error = none ∧
        file = storedHeader shuffle stored ++
          emitBlocks (z.compressor shuffle compressLevel) 0 (writtenBlocks maxDepth v) ∧
        contents z file = pushedBytes (streamWrite maxDepth v).pushed) := by
  by_cases hlong : 24 ≤ file.length
  · obtain ⟨tail,hp⟩ := h
    have hheader : file.take 24 = storedHeader shuffle stored := by
      have htake := congrArg (List.take 24) hp
      rwa [List.take_append_of_le_length hlong,List.take_left' (by simp)] at htake
    obtain ⟨p,rfl⟩ : ∃ p, file = storedHeader shuffle stored ++ p :=
      ⟨file.drop 24,by rw [← hheader,List.take_append_drop]⟩
    rw [List.append_assoc,List.append_cancel_left_eq] at hp
    obtain ⟨j,hfed,hj⟩ := feed_front (hz.lossless shuffle compressLevel)
      (writtenBlocks_sizes maxDepth v) 0 hp
    have hcontents : contents z (storedHeader shuffle stored ++ p) =
        ((writtenBlocks maxDepth v).take j).flatten := by
      rw [contents,readQdataHeader_stored]
      simp only
      rw [Feed.bytes,← Feed.contents,hfed]
    rw [hcontents]
    cases he : (streamWrite maxDepth v).error with
    | some msg =>
      rw [writtenBlocks,he]
      exact .inl (blocks_cut he j d)
    | none =>
      have hblocks : writtenBlocks maxDepth v = blocksOf [] (streamWrite maxDepth v).pushed := by
        rw [writtenBlocks,he]
      by_cases hall : (writtenBlocks maxDepth v).length ≤ j
      · rw [(hj hall).1,List.append_nil] at hp
        refine .inr ⟨rfl,by rw [hp],?_⟩
        rw [List.take_of_length_le hall,hblocks,blocksOf_flatten,List.nil_append]
      · rw [hblocks] at hall ⊢
        exact .inl (blocks_front he (Nat.lt_of_not_le hall) d)
  · rw [contents_short (by omega)]
    exact .inl (streamRead_nil d)

variable (shuffle out) in
theorem readQdataObjectStart_unvalidated (stored : UInt64) :
    readQdataObjectStart xxh false ⟨storedHeader shuffle stored ++ out,0⟩ =
      .ok (⟨shuffle,stored⟩,⟨storedHeader shuffle stored ++ out,24⟩) := by
  have hread : ((InStream.mk (storedHeader shuffle stored ++ out) 0).read 24).2 =
      ⟨storedHeader shuffle stored ++ out,24⟩ := by
    simp [InStream.read,InStream.remaining]
  have hheader : readQdataHeader (InStream.mk (storedHeader shuffle stored ++ out) 0).remaining =
      .ok (⟨shuffle,stored⟩,out) := readQdataHeader_stored shuffle stored out
  rw [readQdataObjectStart,hheader]
  simp only [hread,Bool.false_eq_true,if_false]

theorem readsTo_unvalidated {resets : Bool} {d : Nat} {readers : Int} {stored : UInt64}
    {r : Option Object}
    (h : ReadsTo z xxh resets false d readers (storedHeader shuffle stored ++ out) r)
    (other : UInt64) :
    ReadsTo z xxh resets false d readers (storedHeader shuffle other ++ out) r := by
  have hstart := @readQdataObjectStart_unvalidated xxh shuffle out stored
  have hother := @readQdataObjectStart_unvalidated xxh shuffle out other
  have hsame : (InStream.mk (storedHeader shuffle stored ++ out) 24).remaining =
      (InStream.mk (storedHeader shuffle other ++ out) 24).remaining := by
    rw [InStream.remaining,InStream.remaining,drop_stored,drop_stored]
  cases h with
  | rejected start =>
    rw [hstart] at start
    cases start
  | single one start =>
    rw [hstart] at start
    cases start
    have hsingle : ReadsTo z xxh resets false d readers (storedHeader shuffle other ++ out) _ :=
      .single one hother
    rw [hsame]
    exact hsingle
  | multi more start run exited =>
    rw [hstart] at start
    cases start
    rw [hsame] at run
    have hmulti : ReadsTo z xxh resets false d readers (storedHeader shuffle other ++ out) _ :=
      .multi more hother run exited
    exact hmulti

theorem readsTo_validated {resets : Bool} {d : Nat} {readers : Int} {stored : UInt64} {o : Object}
    (h : ReadsTo z xxh resets true d readers (storedHeader shuffle stored ++ out) (some o)) :
    stored = digest xxh out := by
  obtain ⟨x,hstart⟩ : ∃ x, readQdataObjectStart xxh true
      ⟨storedHeader shuffle stored ++ out,0⟩ = .ok x := by
    generalize hr : some o = r at h
    cases h with
    | rejected start => cases hr
    | single one start => exact ⟨_,start⟩
    | multi more start run exited => exact ⟨_,start⟩
  have hread : ((InStream.mk (storedHeader shuffle stored ++ out) 0).read 24).2 =
      ⟨storedHeader shuffle stored ++ out,24⟩ := by
    simp [InStream.read,InStream.remaining]
  have hheader : readQdataHeader (InStream.mk (storedHeader shuffle stored ++ out) 0).remaining =
      .ok (⟨shuffle,stored⟩,out) := readQdataHeader_stored shuffle stored out
  rw [readQdataObjectStart,hheader] at hstart
  simp only [hread,if_true] at hstart
  rw [readQxHashAt_eq xxh (by simp),InStream.remaining,drop_stored,readQxHash_eq] at hstart
  by_contra hne
  split at hstart
  · cases hstart
  · simp only at hstart
    rw [if_pos (Ne.symm hne)] at hstart
    cases hstart

theorem Interrupted.valid {file : Bytes}
    (h : Interrupted z xxh compressLevel shuffle maxDepth v nthreads file) :
    validateWriteArguments z compressLevel = none ∨ file.length ≤ 24 := by
  have hnothing : ∀ n, (((writeQdataHeader shuffle {}).write []).bytes.take n).length ≤ 24 := by
    intro n
    rw [writeQdataHeader_write]
    simp
  cases hvalid : validateWriteArguments z compressLevel with
  | none => exact .inl rfl
  | some msg =>
    right
    cases h with
    | sending sending n =>
      cases sending with
      | single one =>
        rw [writeQdataObject,hvalid]
        exact hnothing n
      | refused more invalid => exact hnothing n
      | multi more valid =>
        rw [hvalid] at valid
        cases valid
    | hashing returned n =>
      cases returned with
      | single one written =>
        rw [writeQdataObject,hvalid] at written
        cases written
      | multi more valid =>
        rw [hvalid] at valid
        cases valid

/-- Wherever a save is stopped, what its file holds reads as the value that was being saved
or as nothing: as the value only where all blocks are there, and with validation only where
the file is the finished one. Nothing but the checksum missing, it reads like the finished
one without it. -/
theorem interrupted_save (hz : z.Inverts) {file : Bytes}
    (h : Interrupted z xxh compressLevel shuffle maxDepth v nthreads file)
    (resets : Bool) (d : Nat) (readers : Int) :
    (∀ validateChecksum, ∃ r, ReadsTo z xxh resets validateChecksum d readers file r) ∧
    (∀ validateChecksum r, ReadsTo z xxh resets validateChecksum d readers file r →
      r = none ∨ (r = some v.toObject ∧ ∃ out hash,
        Returns z xxh compressLevel shuffle maxDepth v nthreads out hash ∧
        file.drop 24 = out ∧
        (validateChecksum = true → file = savedBytes shuffle out hash))) ∧
    ∀ out hash, Returns z xxh compressLevel shuffle maxDepth v nthreads out hash →
      24+out.length ≤ file.length → ∀ r,
        (ReadsTo z xxh resets false d readers file r ↔
          ReadsTo z xxh resets false d readers (savedBytes shuffle out hash) r) := by
  obtain ⟨stored,hfront⟩ := h.front
  refine ⟨fun _ => readsTo_exists z xxh resets _ d readers file,fun validateChecksum r hr => ?_,
    fun out hash hreturns hlong r => ?_⟩
  · cases r with
    | none => exact .inl rfl
    | some o =>
      obtain ⟨rest,hread⟩ := hr.contents
      rcases front_contents hz hfront d with ⟨e,herror⟩ | ⟨he,hfile,hcontents⟩
      · rw [hread] at herror
        cases herror
      · have hvalid : validateWriteArguments z compressLevel = none := by
          refine h.valid.resolve_right fun hshort => ?_
          obtain ⟨e,herror⟩ := streamRead_nil d
          rw [contents_short hshort,herror] at hread
          cases hread
        obtain ⟨out,hash,hreturns⟩ := returns_exists xxh shuffle hvalid he nthreads
        rw [← hreturns.written] at hfile
        have hd : d ≠ 0 := by
          rintro rfl
          cases hread
        have hwritten := streamRead_written he hd []
        rw [List.append_nil,← hcontents,hread] at hwritten
        have ho : o = v.toObject := by
          split at hwritten
          · exact (Prod.mk.inj (Except.ok.inj hwritten)).1
          · cases hwritten
        refine .inr ⟨congrArg some ho,out,hash,hreturns,by rw [hfile,drop_stored],?_⟩
        rintro rfl
        rw [hfile] at hr
        have hhash : stored = hash := (readsTo_validated hr).trans hreturns.stream.2.2.symm
        rw [hfile,hhash,savedBytes,writeQxHash_bytes]
  · rw [← hreturns.written] at hfront
    have hfile : file = storedHeader shuffle stored ++ out :=
      hfront.eq_of_length_le (by simpa using hlong)
    rw [hfile,savedBytes,writeQxHash_bytes]
    exact ⟨fun hr => readsTo_unvalidated hr hash,fun hr => readsTo_unvalidated hr stored⟩

/-- A save on four threads, stopped between the header and the end of the last block: no read
finds the vector in the file. Stopped on its checksum, no validated read takes the file for
another than the finished one. -/
theorem interrupted_save_anywhere : ∃ out hash,
    Returns storedZstd (fun _ => 256) 3 true 1 threeMillion 4 out hash ∧
    (∀ n, 24 ≤ n → n < 24+out.length → ∀ r, ReadsTo storedZstd (fun _ => 256) true false 1 4
      (((writeQdataHeader true {}).write out).bytes.take n) r → r = none) ∧
    ∀ n r, ReadsTo storedZstd (fun _ => 256) true true 1 4
      ((((writeQdataHeader true {}).write out).seekp headerHashPosition).write
        ((toBytes 8 hash.toNat).take n)).bytes r →
      r = none ∨ ((((writeQdataHeader true {}).write out).seekp headerHashPosition).write
        ((toBytes 8 hash.toNat).take n)).bytes = savedBytes true out hash := by
  have hw := streamWrite_error.mpr ⟨Nat.one_ne_zero,threeMillion_limits,Nat.le_refl 1⟩
  obtain ⟨out,hash,hreturns⟩ := returns_exists (fun _ => 256) true
    (show validateWriteArguments storedZstd 3 = none by decide) hw 4
  have hunique : ∀ {out' hash'}, Returns storedZstd (fun _ => 256) 3 true 1 threeMillion 4
      out' hash' → out' = out ∧ hash' = hash := fun h => by
    have hout := h.written.trans hreturns.written.symm
    exact ⟨hout,by rw [h.stream.2.2,hreturns.stream.2.2,hout]⟩
  refine ⟨out,hash,hreturns,fun n hheader hn r hr => ?_,fun n r hr => ?_⟩
  · have hsending : Sending storedZstd (fun _ => 256) 3 true 1 threeMillion 4 out := by
      cases hreturns with
      | single one => omega
      | multi more valid run ended => exact .multi more valid run (by rw [ended]; nofun)
    rcases (interrupted_save storedZstd_inverts (.sending hsending n) true 1 4).2.1 false r hr with
      h | ⟨_,out',hash',hreturns',hdrop,_⟩
    · exact h
    · rw [(hunique hreturns').1,writeQdataHeader_write] at hdrop
      have hlen := congrArg List.length hdrop
      rw [List.length_drop,List.length_take,List.length_append,length_storedHeader] at hlen
      omega
  · rcases (interrupted_save storedZstd_inverts (.hashing hreturns n) true 1 4).2.1 true r hr with
      h | ⟨_,out',hash',hreturns',_,hfile⟩
    · exact .inl h
    · obtain ⟨rfl,rfl⟩ := hunique hreturns'
      exact .inr (hfile rfl)

end

end QData
