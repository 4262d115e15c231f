import QData.Checksums
import QData.Xxh3Streaming
/-! `xxHashEnv`: the checksum of a file is XXH3, computed update by update. -/
set_option autoImplicit false

namespace QData
open Words

/-- `xxHashEnv`; its state is allocated, and the memory of its buffer is not cleared. -/
structure HashEnv where
  state : Xxh3.State

namespace HashEnv

def start (memory : Vector UInt8 Xxh3.internalBufferSize) : HashEnv :=
  ⟨Xxh3.reset memory.toList⟩

def reset (env : HashEnv) : HashEnv := ⟨Xxh3.reset env.state.buffer⟩

def update (env : HashEnv) (bs : Bytes) : HashEnv := ⟨Xxh3.update env.state bs⟩

def digest (env : HashEnv) : UInt64 :=
  let hash := Xxh3.digest env.state
  if hash = 0 then 1 else hash

end HashEnv

def envToEnd (env : HashEnv) (r : InStream) : HashEnv × InStream :=
  if _h : (r.read maxZblocksize).1 = [] then (env,(r.read maxZblocksize).2)
  else envToEnd (env.update (r.read maxZblocksize).1) (r.read maxZblocksize).2
termination_by r.remaining.length
decreasing_by
  have hz : 0 < maxZblocksize := by decide
  simp only [InStream.read,List.take_eq_nil_iff,not_or] at _h
  have hl := List.length_pos_iff.mpr _h.2
  simp only [InStream.remaining_read,List.length_drop]
  omega

def readQxHashEnv (memory : Vector UInt8 Xxh3.internalBufferSize) (reader : InStream) :
    UInt64 × InStream :=
  let currentPosition := reader.tellg
  let (env,reader) := envToEnd (.start memory) reader
  (env.digest,reader.seekg currentPosition)

/-- An environment that has been fed these bytes since it was made or reset. -/
def HashEnv.Fed (env : HashEnv) (fed : Bytes) : Prop :=
  Xxh3.Represents Xxh3.defaultSecret fed env.state

namespace HashEnv

variable {env : HashEnv} {fed : Bytes}

theorem start_fed (memory : Vector UInt8 Xxh3.internalBufferSize) : (start memory).Fed [] :=
  Xxh3.reset_represents _ memory.length_toList

theorem reset_fed (h : env.Fed fed) : env.reset.Fed [] := by
  obtain ⟨_,habsorbed,_⟩ := h.absorbed
  exact Xxh3.reset_represents _ habsorbed.room

theorem update_fed (h : env.Fed fed) (bs : Bytes) : (env.update bs).Fed (fed ++ bs) :=
  Xxh3.update_represents h bs

theorem updates_fed (h : env.Fed fed) (pieces : List Bytes) :
    (pieces.foldl update env).Fed (fed ++ pieces.flatten) := by
  induction pieces generalizing env fed with
  | nil => simpa using h
  | cons piece pieces ih =>
    rw [List.flatten_cons,← List.append_assoc]
    exact ih (update_fed h piece)

theorem digest_fed (h : env.Fed fed) (hlen : fed.length < 2 ^ 64) :
    env.digest = QData.digest Xxh3.bits fed := by
  rw [digest,Xxh3.digest_represents h hlen]
  rfl

end HashEnv

theorem envToEnd_fed {env : HashEnv} {fed : Bytes} (h : env.Fed fed) (r : InStream) :
    (envToEnd env r).1.Fed (hashToEnd fed r).1 ∧ (envToEnd env r).2 = (hashToEnd fed r).2 := by
  induction env, r using envToEnd.induct generalizing fed with
  | case1 env r hend =>
    rw [envToEnd,dif_pos hend,hashToEnd,dif_pos hend]
    exact ⟨h,rfl⟩
  | case2 env r hmore ih =>
    rw [envToEnd,dif_neg hmore,hashToEnd,dif_neg hmore]
    exact ih (HashEnv.update_fed h _)

theorem readQxHashEnv_eq (memory : Vector UInt8 Xxh3.internalBufferSize) {r : InStream}
    (hlen : r.remaining.length < 2 ^ 64) :
    readQxHashEnv memory r = readQxHashAt Xxh3.bits r := by
  obtain ⟨hfed,hstream⟩ := envToEnd_fed (HashEnv.start_fed memory) r
  have hall : (hashToEnd [] r).1 = r.remaining := by
    rw [(hashToEnd_eq [] r).1,hashRemaining_eq,List.nil_append]
  simp only [readQxHashEnv,readQxHashAt,hstream]
  rw [HashEnv.digest_fed hfed (by rw [hall]; exact hlen)]

/-- A written file stores XXH3 of its blocks. An environment that is fed these in any pieces,
in any memory and after any use, ends with it, and so does the pass of a reader. -/
theorem checksum_streamed {z : Zstd} {compressLevel : Int} {shuffle : Bool} {maxDepth : Nat}
    {v : Value} {nthreads : Int} {out : Bytes} {hash : UInt64}
    (h : Returns z Xxh3.bits compressLevel shuffle maxDepth v nthreads out hash)
    (hlen : out.length < 2 ^ 64) :
    storedHash (savedBytes shuffle out hash) = QData.digest Xxh3.bits out ∧
    (∀ memory (pieces : List Bytes), pieces.flatten = out →
      (pieces.foldl HashEnv.update (.start memory)).digest =
        storedHash (savedBytes shuffle out hash)) ∧
    (∀ memory (before pieces : List Bytes), pieces.flatten = out →
      (pieces.foldl HashEnv.update (before.foldl HashEnv.update (.start memory)).reset).digest =
        storedHash (savedBytes shuffle out hash)) ∧
    ∀ memory, readQxHashEnv memory ⟨savedBytes shuffle out hash,24⟩ =
      (storedHash (savedBytes shuffle out hash),⟨savedBytes shuffle out hash,24⟩) := by
  have hbytes : savedBytes shuffle out hash = storedHeader shuffle hash ++ out :=
    writeQxHash_bytes shuffle out hash
  have hhash := h.stream.2.2
  have hfed : ∀ {env : HashEnv} (pieces : List Bytes), env.Fed [] → pieces.flatten = out →
      (pieces.foldl HashEnv.update env).digest = hash := by
    intro env pieces henv hpieces
    have hall := HashEnv.updates_fed henv pieces
    rw [List.nil_append,hpieces] at hall
    rw [HashEnv.digest_fed hall hlen,hhash]
  rw [hbytes,storedHash_stored]
  refine ⟨hhash,fun memory pieces => hfed pieces (HashEnv.start_fed memory),
    fun memory before pieces => hfed pieces ?_,fun memory => ?_⟩
  · exact HashEnv.reset_fed (HashEnv.updates_fed (HashEnv.start_fed memory) before)
  · have hrest : (InStream.mk (storedHeader shuffle hash ++ out) 24).remaining = out :=
      drop_stored shuffle hash out
    rw [readQxHashEnv_eq memory (by rw [hrest]; exact hlen),readQxHashAt_stored shuffle hhash]

/-- A nil object: its size word and its block, which are the updates of the writer. -/
theorem checksum_streamed_nil :
    ([toBytes 4 (storedCompressor 0 [nilHeader]).zsize,(storedCompressor 0 [nilHeader]).bytes].foldl
        HashEnv.update (.start (Vector.replicate _ 7))).digest =
      QData.digest Xxh3.bits (storedCompressor 0 [nilHeader]).emit := by
  have h := @checksum_streamed storedZstd 3 true defaultQdataMaxNestingDepth .nil 1
    (storedCompressor 0 [nilHeader]).emit _ (.single (by decide) rfl) (by decide)
  rw [h.2.1 _ _ (by simp [Compressed.emit]),h.1]

end QData
