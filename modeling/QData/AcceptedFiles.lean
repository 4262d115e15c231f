import QData.AcceptedBytes
import QData.BlockPlaces
import QData.FileRoundtrip
/-! Which files are accepted: what their blocks hold is in the format, and where the blocks
end a reader can go on. -/
set_option autoImplicit false

namespace QData
open Words Requests Boundaries

def callsOn (d : Nat) (enc : Bytes) : List GetOp := (streamRead d).asked channel enc

example : callsOn 1 [rawHeader32,2,0,0,0,7,8] = [.pod 1,.podContiguous 4,.data 2] := by decide

/-- All calls on an encoding fit the boundaries, each where those before it end. -/
def Laid (boundary : Nat → Prop) (d : Nat) (enc : Bytes) : Prop :=
  AllFit (FitsAt boundary) (fun p op => p+op.size) 0 (callsOn d enc)

/-- What blocks must hold, and where they may end, for an object to be read from them. -/
theorem readFeed_exactly {f : Feed} (hf : ∀ b ∈ f.contents, b ≠ []) {d : Nat} {o : Object} :
    (∃ c, readFeed (streamRead d) f = .ok (o,c)) ↔
      ∃ enc, Encodes d o enc ∧ enc <+: f.contents.flatten ∧
        Laid (Boundary f.contents) d enc := by
  have hrun := run_permitted (@cursor_permitted (Boundary f.contents)) (streamRead_sized d)
    (standing_start hf)
  have hasked : ∀ enc rest, f.contents.flatten = enc ++ rest → Encodes d o enc →
      (streamRead d).asked channel f.contents.flatten = callsOn d enc := by
    intro enc rest hsplit henc
    have hreads := henc.reads []
    rw [List.append_nil] at hreads
    exact asked_refines (channel_extend rest) (streamRead d) hsplit hreads
  constructor
  · rintro ⟨c,hr⟩
    obtain ⟨rest,hchannel,_⟩ := hrun.sound _ _ hr
    obtain ⟨enc,hsplit,henc⟩ := accepts_format.mp hchannel
    refine ⟨enc,henc,⟨rest,hsplit.symm⟩,?_⟩
    rw [Laid,← hasked enc rest hsplit henc]
    exact hrun.fit _ _ hr
  · rintro ⟨enc,henc,⟨rest,hsplit⟩,hlaid⟩
    have hchannel := henc.reads rest
    rw [hsplit] at hchannel
    rw [Laid,← hasked enc rest hsplit.symm henc] at hlaid
    obtain ⟨c,hr,_⟩ := hrun.complete hlaid _ _ hchannel
    exact ⟨c,hr⟩

/-- A file header: a version that is known, the only compression and byte order there are,
any shuffle flag, reserved bytes that nobody looks at, and the checksum. -/
inductive HeaderBytes : QdataHeader → Bytes → Prop
  | header {version flag : UInt8} {reserved : Bytes} {hash : UInt64}
      (known : version ≤ qdataCurrentFormatVer) (size : reserved.length = 8) :
      HeaderBytes ⟨flag != noShuffleFlag,hash⟩ (qdataMagicBits ++
        [version,zstdCompressionFlag,littleEndianFlag,flag] ++ reserved ++ toBytes 8 hash.toNat)

inductive BlockEncodes (dp : Decompressor) : Block → Bytes → Prop
  | zblock (z : Compressed) (filled : (dp.decompress z.bytes z.zsize).1 ≠ []) :
      BlockEncodes dp (dp.decompress z.bytes z.zsize) z.emit

/-- A file that holds an object: a header, blocks whose contents begin with an encoding of the
object, laid out as their boundaries allow, and anything behind them. If the checksum is to
be validated, it is that of everything behind the header. -/
inductive FileEncodes (z : Zstd) (xxh : Bytes → UInt64) (validateChecksum : Bool) (d : Nat)
    (o : Object) : Bytes → Prop
  | file {header : QdataHeader} {hs zs tail enc : Bytes} {blocks : List Block}
      (headed : HeaderBytes header hs)
      (checked : validateChecksum = true →
        header.hash ≠ 0 ∧ digest xxh (zs ++ tail) = header.hash)
      (compressed : Languages.Each (BlockEncodes (z.decompressor header.shuffle)) blocks zs)
      (encodes : Encodes d o enc) (front : enc <+: (blocks.map Subtype.val).flatten)
      (laid : Laid (Boundary (blocks.map Subtype.val)) d enc) :
      FileEncodes z xxh validateChecksum d o (hs ++ (zs ++ tail))

theorem HeaderBytes.length {header : QdataHeader} {hs : Bytes} (h : HeaderBytes header hs) :
    hs.length = 24 := by
  cases h with
  | header known size => simp [qdataMagicBits,size]

theorem HeaderBytes.reads {header : QdataHeader} {hs : Bytes} (h : HeaderBytes header hs)
    (rest : Bytes) : readQdataHeader (hs ++ rest) = .ok (header,rest) := by
  have hlen := h.length
  have htake : (hs ++ rest).take 24 = hs := by rw [← hlen,List.take_left]
  have hdrop : (hs ++ rest).drop 24 = rest := by rw [← hlen,List.drop_left]
  have hpad : 24 - (hs ++ rest).length = 0 := by
    rw [List.length_append]
    omega
  rw [readQdataHeader]
  simp only [htake,hdrop,hpad,List.replicate_zero,List.append_nil]
  cases h with
  | @header version flag reserved hash known size =>
    have hhash : UInt64.ofNat (toNat (toBytes 8 hash.toNat)) = hash := by
      rw [toNat_toBytes (by simpa using hash.toNat_lt),UInt64.ofNat_toNat]
    have hbits : ((qdataMagicBits ++ [version,zstdCompressionFlag,littleEndianFlag,flag] ++
        reserved ++ toBytes 8 hash.toNat).drop headerHashPosition).take 8 =
          toBytes 8 hash.toNat := by
      have hfront : (qdataMagicBits ++ [version,zstdCompressionFlag,littleEndianFlag,flag] ++
          reserved).length = headerHashPosition := by simp [qdataMagicBits,size,headerHashPosition]
      rw [← hfront,List.drop_left,List.take_of_length_le (by simp)]
    rw [hbits,hhash]
    have hmagic : checkMagicNumber (qdataMagicBits ++
        [version,zstdCompressionFlag,littleEndianFlag,flag] ++ reserved ++
          toBytes 8 hash.toNat) qdataMagicBits = true := rfl
    rw [if_neg (not_not_intro hmagic),if_neg (by simpa [qdataMagicBits] using known),
      if_neg (by simp [qdataMagicBits]),if_neg (by simp [qdataMagicBits])]
    rfl

theorem readQdataHeader_takes {bytes rest : Bytes} {header : QdataHeader}
    (h : readQdataHeader bytes = .ok (header,rest)) (hrest : rest ≠ []) :
    ∃ hs, bytes = hs ++ rest ∧ HeaderBytes header hs := by
  have hdrop := readQdataHeader_rest h
  have hlen : 24 < bytes.length := by
    by_contra hlt
    exact hrest (hdrop.trans (List.drop_of_length_le (by omega)))
  refine ⟨bytes.take 24,by rw [hdrop,List.take_append_drop],?_⟩
  have hpad : 24 - bytes.length = 0 := by omega
  rw [readQdataHeader,hpad,List.replicate_zero,List.append_nil] at h
  have htake : (bytes.take 24).length = 24 := by rw [List.length_take]; omega
  generalize bytes.take 24 = bits at h htake ⊢
  have hcons : ∀ i < 24, bits.drop i = bits.getD i 0 :: bits.drop (i+1) := by
    intro i hi
    rw [List.drop_eq_getElem_cons (by omega),List.getD_eq_getElem _ _ (by omega)]
  split at h
  · split at h
    · cases h
    · split at h <;> cases h
  next hmagic =>
  split at h
  · cases h
  next hknown =>
  split at h
  · cases h
  next hcompression =>
  split at h
  · cases h
  next hendian =>
  cases h
  have hbytes : bits = qdataMagicBits ++ [bits.getD 4 0,zstdCompressionFlag,littleEndianFlag,
      bits.getD 7 0] ++ (bits.drop 8).take 8 ++ bits.drop headerHashPosition := by
    have hfront : bits.take 4 = qdataMagicBits := by simpa [checkMagicNumber] using hmagic
    have hback : (bits.drop 8).drop 8 = bits.drop headerHashPosition := List.drop_drop
    rw [← hback,List.append_assoc,List.take_append_drop,List.append_assoc,← hfront]
    nth_rewrite 1 [← List.take_append_drop 4 bits]
    rw [hcons 4 (by decide),hcons 5 (by decide),hcons 6 (by decide),hcons 7 (by decide),
      Decidable.not_not.mp hcompression,Decidable.not_not.mp hendian]
    rfl
  have hhash : (bits.drop headerHashPosition).length = 8 := by
    rw [List.length_drop,htake]
    rfl
  have hword : toBytes 8 (UInt64.ofNat (toNat ((bits.drop headerHashPosition).take 8))).toNat =
      bits.drop headerHashPosition := by
    have hlt := toNat_lt (bits.drop headerHashPosition)
    rw [hhash] at hlt
    rw [List.take_of_length_le (Nat.le_of_eq hhash),UInt64.toNat_ofNat_of_lt' hlt,← hhash,
      toBytes_toNat]
  have hheader := @HeaderBytes.header (bits.getD 4 0) (bits.getD 7 0) ((bits.drop 8).take 8)
    (UInt64.ofNat (toNat ((bits.drop headerHashPosition).take 8))) (UInt8.not_lt.mp hknown)
    (by simp [htake])
  rw [hword,← hbytes] at hheader
  exact hheader

theorem readZblock_takes {stream zbytes rest : Bytes} {zsize : Nat}
    (h : readZblock stream = .zblock zsize zbytes rest) :
    ∃ z : Compressed, z.zsize = zsize ∧ z.bytes = zbytes ∧ stream = z.emit ++ rest := by
  unfold readZblock at h
  split at h
  · cases h
  next hlen =>
  simp only at h
  split at h
  next hfits =>
    split at h
    · cases h
    next hlong =>
    simp only [Zblock.zblock.injEq] at h
    obtain ⟨rfl,rfl,rfl⟩ := h
    have hfour : (stream.take 4).length = 4 := by rw [List.length_take]; omega
    have hword := toNat_lt (stream.take 4)
    rw [hfour] at hword
    refine ⟨⟨toNat (stream.take 4),_,hword,?_,?_⟩,rfl,rfl,?_⟩
    · exact List.length_take_of_le (by omega)
    · simpa [compressedBlockSizeFitsBuffer] using hfits
    · have hsize := toBytes_toNat (stream.take 4)
      rw [hfour] at hsize
      rw [Compressed.emit,hsize,List.append_assoc,List.take_append_drop,List.take_append_drop]
  · cases h

theorem feed_encodes (dp : Decompressor) (stream : Bytes) :
    ∃ zs tail, stream = zs ++ tail ∧
      Languages.Each (BlockEncodes dp) ((streamSource dp).feed stream).blocks zs := by
  induction stream using BlockSource.feed.induct (streamSource dp) with
  | case1 stream e hf =>
    rw [BlockSource.feed_error hf]
    exact ⟨[],stream,rfl,.nil⟩
  | case2 stream b rest hf ih =>
    obtain ⟨zsize,zbytes,hz,hne,hb⟩ := decompressNext_ok hf
    obtain ⟨z,rfl,rfl,rfl⟩ := readZblock_takes hz
    obtain ⟨zs,tail,rfl,hzs⟩ := ih
    rw [BlockSource.feed_ok hf]
    subst hb
    exact ⟨_,tail,(List.append_assoc _ _ _).symm,.cons (.zblock z hne) hzs⟩

theorem feed_encoded {dp : Decompressor} {blocks : List Block} {zs : Bytes}
    (h : Languages.Each (BlockEncodes dp) blocks zs) (tail : Bytes) :
    ((streamSource dp).feed (zs ++ tail)).blocks =
      blocks ++ ((streamSource dp).feed tail).blocks := by
  induction h with
  | nil => rfl
  | cons first _ ih =>
    cases first with
    | zblock z filled =>
      have hfetch : ∀ rest, (streamSource dp).fetch (z.emit ++ rest) =
          .ok (dp.decompress z.bytes z.zsize,rest) := by
        intro rest
        simp only [streamSource,decompressNext,readZblock_emit]
        rw [if_neg filled]
      rw [List.append_assoc,BlockSource.feed_ok (hfetch _),List.cons_append,ih]

theorem Encodes.nonempty {d : Nat} {o : Object} : ¬ Encodes d o [] := by
  intro h
  have hreads := h.reads []
  cases d with
  | zero => cases hreads
  | succ d => cases hreads

theorem BlockEncodes.nonempty {dp : Decompressor} {blocks : List Block} {zs : Bytes}
    (h : Languages.Each (BlockEncodes dp) blocks zs) : ∀ b ∈ blocks.map Subtype.val, b ≠ [] := by
  intro b hb
  obtain ⟨x,hx,rfl⟩ := List.mem_map.mp hb
  refine h.forall (P := fun x => x.1 ≠ []) (fun x w hw => ?_) x hx
  cases hw with
  | zblock z filled => exact filled

/-- The single-threaded reader accepts exactly the streams whose blocks hold an encoding and
are cut as it allows. -/
theorem readSingleThread_exactly {dp : Decompressor} {stream : Bytes} {d : Nat} {o : Object} :
    readSingleThread dp stream d = .ok o ↔
      ∃ blocks zs tail enc, stream = zs ++ tail ∧
        Languages.Each (BlockEncodes dp) blocks zs ∧ Encodes d o enc ∧
          enc <+: (blocks.map Subtype.val).flatten ∧
            Laid (Boundary (blocks.map Subtype.val)) d enc := by
  rw [readSingleThread_eq]
  constructor
  · intro h
    obtain ⟨zs,tail,hstream,hzs⟩ := feed_encodes dp stream
    cases hr : readFeed (streamRead d) ((streamSource dp).feed stream) with
    | error e => rw [hr] at h; cases h
    | ok x =>
      rw [hr] at h
      cases h
      obtain ⟨enc,henc,hfront,hlaid⟩ :=
        (readFeed_exactly (BlockEncodes.nonempty hzs)).mp ⟨x.2,hr⟩
      exact ⟨_,zs,tail,enc,hstream,hzs,henc,hfront,hlaid⟩
  · rintro ⟨blocks,zs,tail,enc,rfl,hzs,henc,hfront,hlaid⟩
    -- the blocks in front are enough, whatever comes behind them
    have hfew : ∃ c, readFeed (streamRead d) ⟨blocks,.blocked⟩ = .ok (o,c) :=
      (readFeed_exactly (BlockEncodes.nonempty hzs)).mpr ⟨enc,henc,hfront,hlaid⟩
    obtain ⟨c,hc⟩ := hfew
    have hdemand : demand (streamRead d) blocks = .ok o := by rw [demand_eq,hc]; rfl
    have hserved : demand (streamRead d) blocks ≠ .error .blocked := by
      rw [hdemand]
      intro h
      cases h
    have henough := readFeed_enough hserved ((streamSource dp).feed tail).blocks
      ((streamSource dp).feed (zs ++ tail)).stop
    rw [hdemand,← feed_encoded hzs tail] at henough
    exact henough

theorem readSingleThread_nil {dp : Decompressor} {d : Nat} {o : Object} :
    readSingleThread dp [] d ≠ .ok o := by
  intro h
  rw [readSingleThread_eq,feed_nil] at h
  cases hr : readFeed (streamRead d)
      ⟨[],cleanupHalt "Unexpected end of file while reading next block size"⟩ with
  | error e => rw [hr] at h; cases h
  | ok x =>
    rw [hr] at h
    cases h
    obtain ⟨enc,henc,hfront,_⟩ := (readFeed_exactly (fun b hb => by cases hb)).mp ⟨x.2,hr⟩
    rw [List.prefix_nil.mp hfront] at henc
    exact henc.nonempty

section
variable {z : Zstd} {xxh : Bytes → UInt64} {resets validateChecksum : Bool} {d : Nat}

theorem readQdataObjectStart_checked {bytes rest : Bytes} {header : QdataHeader}
    (h : readQdataHeader bytes = .ok (header,rest)) :
    (∃ stream, readQdataObjectStart xxh validateChecksum ⟨bytes,0⟩ = .ok (header,stream)) ↔
      (validateChecksum = true → header.hash ≠ 0 ∧ digest xxh rest = header.hash) := by
  have hstart : (InStream.mk bytes 0).remaining = bytes := rfl
  have hposition := InStream.position_read_le (r := ⟨bytes,0⟩) (Nat.zero_le _) 24
  have hbehind : ((InStream.mk bytes 0).read 24).2.remaining = rest := by
    rw [InStream.remaining_read,readQdataHeader_rest h,hstart]
  rw [readQdataObjectStart,hstart,h]
  simp only [readQxHashAt_eq xxh hposition,hbehind,readQxHash_eq]
  cases validateChecksum with
  | false => simp
  | true =>
    by_cases hz : header.hash = 0
    · simp [hz]
    · by_cases hsame : digest xxh rest = header.hash
      · simp [hz,hsame]
      · simp [hz,hsame]

theorem ReadsTo.encodes {readers : Int} {bytes : Bytes} {o : Object}
    (h : ReadsTo z xxh resets validateChecksum d readers bytes (some o)) :
    FileEncodes z xxh validateChecksum d o bytes := by
  obtain ⟨header,stream,hstart,hread⟩ := h.started
  have hheader := readQdataObjectStart_ok hstart
  have hrest : stream.remaining ≠ [] := by
    intro hnil
    rw [hnil] at hread
    exact readSingleThread_nil hread
  obtain ⟨blocks,zs,tail,enc,hstream,hzs,henc,hfront,hlaid⟩ := readSingleThread_exactly.mp hread
  obtain ⟨hs,rfl,hhs⟩ := readQdataHeader_takes hheader hrest
  have hchecked := (readQdataObjectStart_checked hheader).mp ⟨stream,hstart⟩
  rw [hstream] at hchecked ⊢
  exact .file hhs hchecked hzs henc hfront hlaid

theorem FileEncodes.reads {readers : Int} {bytes : Bytes} {o : Object}
    (h : FileEncodes z xxh validateChecksum d o bytes)
    (hsound : readers ≤ 1 ∨ ∀ header rest, readQdataHeader bytes = .ok (header,rest) →
      ¬ Broken (z.decompressor header.shuffle) rest) {r : Option Object}
    (hr : ReadsTo z xxh resets validateChecksum d readers bytes r) : r = some o := by
  cases h with
  | @file header hs zs tail enc blocks headed checked compressed encodes front laid =>
    have hheader := headed.reads (zs ++ tail)
    have hread : readSingleThread (z.decompressor header.shuffle) (zs ++ tail) d = .ok o :=
      readSingleThread_exactly.mpr ⟨blocks,zs,tail,enc,rfl,compressed,encodes,front,laid⟩
    obtain ⟨stream,hstart⟩ := (readQdataObjectStart_checked hheader).mpr checked
    have hrest : stream.remaining = zs ++ tail := by
      have hsame := readQdataObjectStart_ok hstart
      rw [hheader] at hsame
      exact (Prod.mk.inj (Except.ok.inj hsame)).2.symm
    cases hr with
    | rejected start =>
      rw [hstart] at start
      cases start
    | single one start =>
      rw [hstart] at start
      cases start
      rw [hrest,hread]
      rfl
    | multi more start run exited =>
      rw [hstart] at start
      cases start
      rw [hrest] at run
      have hb := (hsound.resolve_left (by omega)) header _ hheader
      rw [exited_returned run hb exited hread]
      rfl

/-- Which files are accepted, and as which object: whatever any reader returns, the file
holds; and what a file holds every reader returns, on several threads if no block behind
the object is broken. -/
theorem accepts_files (readers : Int) (bytes : Bytes) (o : Object) :
    (ReadsTo z xxh resets validateChecksum d readers bytes (some o) →
      FileEncodes z xxh validateChecksum d o bytes) ∧
    (FileEncodes z xxh validateChecksum d o bytes →
      (readers ≤ 1 ∨ ∀ header rest, readQdataHeader bytes = .ok (header,rest) →
        ¬ Broken (z.decompressor header.shuffle) rest) →
      (∃ r, ReadsTo z xxh resets validateChecksum d readers bytes r) ∧
        ∀ r, ReadsTo z xxh resets validateChecksum d readers bytes r → r = some o) :=
  ⟨ReadsTo.encodes,fun h hsound =>
    ⟨readsTo_exists z xxh resets validateChecksum d readers bytes,fun _ hr => h.reads hsound hr⟩⟩

/-- What a save leaves of a value that can come back is such a file. -/
theorem Returns.encodes {compressLevel nthreads : Int} {shuffle : Bool} {maxDepth : Nat}
    {v : Value} {out : Bytes} {hash : UInt64} (hz : z.Inverts)
    (h : Returns z xxh compressLevel shuffle maxDepth v nthreads out hash)
    (hrec : Recoverable (z.compressor shuffle compressLevel) maxDepth d v) :
    FileEncodes z xxh validateChecksum d v.toObject (savedBytes shuffle out hash) := by
  obtain ⟨r,hr⟩ := readsTo_exists z xxh true validateChecksum d 1 (savedBytes shuffle out hash)
  rcases h.reads_back hz hr with ⟨rfl,_⟩ | ⟨_,hnot⟩
  · exact hr.encodes
  · exact absurd hrec hnot

end

end QData
