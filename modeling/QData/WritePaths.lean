import QData.PayloadPass
import QData.QdataFile
/-! The ways a value may hand its elements over: whichever it takes, the blocks are those of
the native object. -/
set_option autoImplicit false

namespace QData
open Words

mutual
def Value.Initialized : Value → Prop
  | .nil => True
  | .vector _ _ attrs => AttrsInitialized attrs
  | .list values attrs => AttrsInitialized attrs ∧ ValuesInitialized values
  | .writable v => v.Initialized
  | .uninitialized => False

def AttrsInitialized : List (Bytes × Value) → Prop
  | [] => True
  | (_,v) :: rest => v.Initialized ∧ AttrsInitialized rest

def ValuesInitialized : List Value → Prop
  | [] => True
  | v :: rest => v.Initialized ∧ ValuesInitialized rest
end

def Value.native (v : Value) : Value := v.toObject.toValue

@[simp] theorem length_native_attrs (attrs : List (Bytes × Value)) :
    (attrsToValues (attrsToObjects attrs)).length = attrs.length := by
  induction attrs with
  | nil => rfl
  | cons a attrs ih =>
    obtain ⟨name,v⟩ := a
    simp only [attrsToObjects,attrsToValues,List.length_cons,ih]

@[simp] theorem length_native_values (values : List Value) :
    (objectsToValues (valuesToObjects values)).length = values.length := by
  induction values with
  | nil => rfl
  | cons v values ih => simp only [valuesToObjects,objectsToValues,List.length_cons,ih]

/-! The header pass is the same up to how the deferred payloads will be handed over. -/

def Deferred.native (d : Deferred) : Deferred := ⟨.direct,d.leaf⟩

def Payloads.native (p : Payloads) : Payloads :=
  ⟨p.string.map Deferred.native,p.complex.map Deferred.native,p.real.map Deferred.native,
    p.integer.map Deferred.native,p.raw.map Deferred.native⟩

def WriteRun.native (r : WriteRun) : WriteRun := { r with deferred := r.deferred.native }

theorem Payloads.native_append (p q : Payloads) :
    (p.append q).native = p.native.append q.native := by
  simp [Payloads.append,Payloads.native]

theorem WriteRun.native_append (a b : WriteRun) : (a ++ b).native = a.native ++ b.native := by
  cases h : a.error with
  | some e =>
    have hn : a.native.error = some e := h
    rw [WriteRun.append_failed h,WriteRun.append_failed hn]
  | none =>
    have hn : a.native.error = none := h
    rw [WriteRun.append_ok h,WriteRun.append_ok hn]
    simp [WriteRun.native,Payloads.native_append]

theorem WriteRun.native_of_none {r : WriteRun} (h : r.deferred = {}) : r.native = r := by
  cases r
  cases h
  rfl

theorem enterObjectScope_native (budget : Nat) :
    (enterObjectScope budget).native = enterObjectScope budget := by
  unfold enterObjectScope
  split <;> rfl

theorem deferPayload_native (d : Deferred) :
    (deferPayload d).native = deferPayload d.native := by
  obtain ⟨access,leaf⟩ := d
  unfold deferPayload
  by_cases h : leaf.size > 0
  · rw [if_pos h,if_pos (show (Deferred.native ⟨access,leaf⟩).leaf.size > 0 from h)]
    cases leaf <;> rfl
  · rw [if_neg h,if_neg (show ¬ (Deferred.native ⟨access,leaf⟩).leaf.size > 0 from h)]
    rfl

mutual
theorem writeObject_native : (v : Value) → v.Initialized → (budget : Nat) →
    (writeObject budget v).native = writeObject budget v.native
  | .nil, _, budget => by
      rw [writeObject,WriteRun.native_append,enterObjectScope_native]
      rfl
  | .vector access leaf attrs, h, budget => by
      rw [Value.Initialized] at h
      simp only [Value.native,Value.toObject,Object.toValue,writeObject,WriteRun.native_append,
        enterObjectScope_native,deferPayload_native,writeAttributes_native attrs h,
        WriteRun.native_of_none (beginLeafVector_deferred _ _),length_native_attrs]
      rfl
  | .list values attrs, h, budget => by
      rw [Value.Initialized] at h
      simp only [Value.native,Value.toObject,Object.toValue,writeObject,WriteRun.native_append,
        enterObjectScope_native,writeAttributes_native attrs h.1,
        writeValues_native values h.2,WriteRun.native_of_none (beginListVector_deferred _ _),
        length_native_attrs,length_native_values]
  | .writable v, h, budget => writeObject_native v h budget
  | .uninitialized, h, _ => h.elim

theorem writeAttributes_native : (attrs : List (Bytes × Value)) → AttrsInitialized attrs →
    (budget : Nat) → (writeAttributes budget attrs).native =
      writeAttributes budget (attrsToValues (attrsToObjects attrs))
  | [], _, _ => rfl
  | (name,v) :: rest, h, budget => by
      simp only [attrsToObjects,attrsToValues,writeAttributes,writeAttributeName,
        WriteRun.native_append,WriteRun.native_of_none (writeText_deferred name),
        writeObject_native v h.1,writeAttributes_native rest h.2]
      rfl

theorem writeValues_native : (values : List Value) → ValuesInitialized values →
    (budget : Nat) → (writeValues budget values).native =
      writeValues budget (objectsToValues (valuesToObjects values))
  | [], _, _ => rfl
  | v :: rest, h, budget => by
      simp only [valuesToObjects,objectsToValues,writeValues,WriteRun.native_append,
        writeObject_native v h.1,writeValues_native rest h.2]
      rfl
end

/-! Payloads: pieces pushed one after the other make the blocks of one push. -/

theorem cutCall_data_full {block : Bytes} (h : maxBlocksize ≤ block.length) (bs : Bytes) :
    cutCall block (.data bs) =
      (block :: (Chunks.cut maxBlocksize bs).1,(Chunks.cut maxBlocksize bs).2) := by
  rw [cutCall,if_pos h]

theorem cutCall_data_short {block : Bytes} (h : block.length < maxBlocksize) (bs : Bytes) :
    cutCall block (.data bs) = Chunks.cut maxBlocksize (block ++ bs) := by
  rw [cutCall,if_neg (Nat.not_le.mpr h)]

theorem cutCalls_data_append (block a b : Bytes) :
    cutCalls block [.data a,.data b] = cutCalls block [.data (a ++ b)] := by
  have hrest : ∀ xs : Bytes, (Chunks.cut maxBlocksize xs).2.length < maxBlocksize :=
    Chunks.cut_rest_lt (by decide)
  simp only [cutCalls]
  by_cases h : maxBlocksize ≤ block.length
  · rw [cutCall_data_full h,cutCall_data_full h,Chunks.cut_append]
    rw [cutCall_data_short (hrest a)]
    simp
  · have h : block.length < maxBlocksize := by omega
    rw [cutCall_data_short h,cutCall_data_short h,← List.append_assoc block a b,
      Chunks.cut_append (block ++ a) b,cutCall_data_short (hrest (block ++ a))]
    simp

theorem cutCalls_pieces (block : Bytes) (piece : Bytes) (pieces : List Bytes) :
    cutCalls block ((piece :: pieces).map .data) =
      cutCalls block [.data (piece :: pieces).flatten] := by
  induction pieces generalizing piece with
  | nil => simp
  | cons next pieces ih =>
    have hsplit : (piece :: next :: pieces).map PushOp.data =
        [.data piece,.data next] ++ pieces.map .data := rfl
    rw [hsplit,cutCalls_append,cutCalls_data_append,← cutCalls_append]
    have h := ih (piece ++ next)
    simpa using h

theorem cutCalls_each {α : Type} (put : α → Bytes) {xs : List α} (h : xs ≠ [])
    (block : Bytes) :
    cutCalls block (xs.map fun x => .data (put x)) = cutCalls block [.data (pack put xs)] := by
  cases xs with
  | nil => exact absurd rfl h
  | cons x xs =>
    have hp := cutCalls_pieces block (put x) (xs.map put)
    simpa [Function.comp_def,pack,List.flatMap_def] using hp

/-- Two runs that end alike and, from whatever the block writer holds, leave the same
blocks. -/
structure WriteRun.SameBlocks (a b : WriteRun) : Prop where
  error : a.error = b.error
  cut : ∀ block, cutCalls block a.pushed = cutCalls block b.pushed

theorem WriteRun.SameBlocks.refl (a : WriteRun) : a.SameBlocks a := ⟨rfl,fun _ => rfl⟩

theorem WriteRun.SameBlocks.append {a b c d : WriteRun} (h : a.SameBlocks b)
    (k : c.SameBlocks d) : (a ++ c).SameBlocks (b ++ d) := by
  cases ha : a.error with
  | some e =>
    have hb : b.error = some e := h.error ▸ ha
    rw [WriteRun.append_failed ha,WriteRun.append_failed hb]
    exact h
  | none =>
    have hb : b.error = none := h.error ▸ ha
    rw [WriteRun.append_ok ha,WriteRun.append_ok hb]
    refine ⟨k.error,fun block => ?_⟩
    simp only [cutCalls_append,h.cut,k.cut]

theorem writeEach_pushData_eq {α : Type} (put : α → Bytes) (xs : List α) :
    writeEach (fun x => pushData (put x)) xs = { pushed := xs.map fun x => .data (put x) } := by
  induction xs with
  | nil => rfl
  | cons x xs ih =>
    rw [writeEach,ih,WriteRun.append_ok rfl]
    rfl

theorem emitArray_sameBlocks {α : Type} (put : α → Bytes) (access : Access) (xs : List α) :
    (emitArray put access xs).SameBlocks (emitArray put .direct xs) := by
  cases access with
  | direct => exact .refl _
  | elementwise =>
    by_cases h : xs = []
    · subst h
      exact .refl _
    · have hlen : xs.length > 0 := List.length_pos_iff.mpr h
      simp only [emitArray,writeArrayData,if_pos hlen]
      rw [writeEach_pushData_eq]
      exact ⟨rfl,cutCalls_each put h⟩

theorem emitPayload_sameBlocks (d : Deferred) :
    (emitPayload d).SameBlocks (emitPayload d.native) := by
  obtain ⟨access,leaf⟩ := d
  cases leaf with
  | logical xs => exact emitArray_sameBlocks int32Bytes access xs
  | integer xs => exact emitArray_sameBlocks int32Bytes access xs
  | real xs => exact emitArray_sameBlocks doubleBytes access xs
  | complex xs => exact emitArray_sameBlocks complexBytes access xs
  | string records => exact .refl _
  | raw xs => exact emitArray_sameBlocks byteBytes access xs

theorem flushPayloadGroup_sameBlocks (ds : List Deferred) :
    (flushPayloadGroup ds).SameBlocks (flushPayloadGroup (ds.map Deferred.native)) := by
  induction ds with
  | nil => exact .refl _
  | cons d ds ih => exact (emitPayload_sameBlocks d).append ih

theorem flushPayloads_sameBlocks (p : Payloads) :
    (flushPayloads p).SameBlocks (flushPayloads p.native) :=
  (flushPayloadGroup_sameBlocks p.string).append
    ((flushPayloadGroup_sameBlocks p.complex).append
      ((flushPayloadGroup_sameBlocks p.real).append
        ((flushPayloadGroup_sameBlocks p.integer).append
          (flushPayloadGroup_sameBlocks p.raw))))

theorem streamWrite_sameBlocks {v : Value} (hv : v.Initialized) (maxDepth : Nat) :
    (streamWrite maxDepth v).SameBlocks (streamWrite maxDepth v.native) := by
  have h := writeObject_native v hv maxDepth
  have hheaders : (writeObject maxDepth v).SameBlocks (writeObject maxDepth v.native) := by
    rw [← h]
    exact ⟨rfl,fun _ => rfl⟩
  have hdeferred : (writeObject maxDepth v.native).deferred =
      (writeObject maxDepth v).deferred.native := by
    rw [← h]
    rfl
  unfold streamWrite
  rw [hdeferred]
  exact (WriteRun.SameBlocks.refl _).append (hheaders.append (flushPayloads_sameBlocks _))

section
variable {z : Zstd} {xxh : Bytes → UInt64} {compressLevel : Int} {shuffle : Bool}
  {maxDepth : Nat} {v w : Value}

theorem writeQdataObject_sameBlocks
    (h : (streamWrite maxDepth v).SameBlocks (streamWrite maxDepth w)) :
    writeQdataObject z xxh compressLevel shuffle maxDepth v =
      writeQdataObject z xxh compressLevel shuffle maxDepth w := by
  unfold writeQdataObject
  split
  · rfl
  · simp only [writeSingleThread,BlockWriter.pushAll_eq,h.error,h.cut]

theorem Returns.sameBlocks {nthreads : Int} {out : Bytes} {hash : UInt64}
    (h : (streamWrite maxDepth v).SameBlocks (streamWrite maxDepth w))
    (hr : Returns z xxh compressLevel shuffle maxDepth v nthreads out hash) :
    Returns z xxh compressLevel shuffle maxDepth w nthreads out hash := by
  obtain ⟨he,hout,hhash⟩ := hr.stream
  have hvalid : validateWriteArguments z compressLevel = none := by
    cases hr with
    | single _ written =>
      cases hz : validateWriteArguments z compressLevel with
      | some msg => rw [writeQdataObject,hz] at written; cases written
      | none => rfl
    | multi _ valid _ _ => exact valid
  obtain ⟨out',hash',hr'⟩ := returns_exists xxh shuffle hvalid (h.error ▸ he) nthreads
  obtain ⟨_,hout',hhash'⟩ := hr'.stream
  have hblocks : out' = out := by
    rw [hout,hout',blocksOf,blocksOf,h.cut]
  subst hblocks
  rwa [hhash,← hhash']

end

/-- Whatever path a value takes, the write is that of the native object: rejected for the
same reason or cut into the same blocks, on one thread or several. -/
theorem write_paths_agree (z : Zstd) (xxh : Bytes → UInt64) (compressLevel : Int)
    (shuffle : Bool) (maxDepth : Nat) (v : Value) (hv : v.Initialized) :
    (streamWrite maxDepth v).error = (streamWrite maxDepth v.native).error ∧
    (∀ block, cutCalls block (streamWrite maxDepth v).pushed =
      cutCalls block (streamWrite maxDepth v.native).pushed) ∧
    (∀ nthreads out hash, Returns z xxh compressLevel shuffle maxDepth v nthreads out hash ↔
      Returns z xxh compressLevel shuffle maxDepth v.native nthreads out hash) ∧
    (∀ nthreads bytes bytes', Serializes z xxh compressLevel shuffle maxDepth v nthreads bytes →
      Serializes z xxh compressLevel shuffle maxDepth v.native nthreads bytes' →
      bytes = bytes') ∧
    (∀ path isValid prior, saveErased z xxh compressLevel shuffle maxDepth v path isValid prior =
      saveErased z xxh compressLevel shuffle maxDepth v.native path isValid prior) ∧
    ∀ {α : Type} (put : α → Bytes) (xs : List α) (cp : Compressor) (w : BlockWriter),
      xs ≠ [] → w.pushAll cp (xs.map fun x => .data (put x)) = w.pushData cp (pack put xs) := by
  have h := streamWrite_sameBlocks hv maxDepth
  have hback : (streamWrite maxDepth v.native).SameBlocks (streamWrite maxDepth v) :=
    ⟨h.error.symm,fun block => (h.cut block).symm⟩
  refine ⟨h.error,h.cut,fun _ _ _ => ⟨.sameBlocks h,.sameBlocks hback⟩,?_,?_,?_⟩
  · rintro nthreads bytes bytes' ⟨out,hash,hr,rfl⟩ ⟨out',hash',hr',rfl⟩
    obtain ⟨_,hout,hhash⟩ := (hr.sameBlocks h).stream
    obtain ⟨_,hout',hhash'⟩ := hr'.stream
    rw [hhash,hhash',hout,hout']
  · intro path isValid prior
    simp only [saveErased,writeQdataObject_sameBlocks h]
  · intro α put xs cp w hxs
    have hpush : w.pushData cp (pack put xs) = w.pushAll cp [.data (pack put xs)] := rfl
    rw [hpush,BlockWriter.pushAll_eq,BlockWriter.pushAll_eq,cutCalls_each put hxs]

def wrappedSample : Value := .list [.writable (.vector .elementwise (.raw [1,2]) [])] []

example : (streamWrite 2 wrappedSample).pushed.drop 2 =
    [.podContiguous [2,0,0,0],.data [1],.data [2]] := by decide

theorem write_paths_agree_wrapped : wrappedSample.Initialized ∧
    (streamWrite 2 wrappedSample).pushed ≠ (streamWrite 2 wrappedSample.native).pushed ∧
    ∀ nthreads out hash,
      Returns storedZstd (fun _ => 5) 3 true 2 wrappedSample nthreads out hash ↔
      Returns storedZstd (fun _ => 5) 3 true 2 wrappedSample.native nthreads out hash := by
  have hv : wrappedSample.Initialized := by
    simp [wrappedSample,Value.Initialized,AttrsInitialized,ValuesInitialized]
  exact ⟨hv,by decide,(write_paths_agree storedZstd (fun _ => 5) 3 true 2 wrappedSample hv).2.2.1⟩

end QData
