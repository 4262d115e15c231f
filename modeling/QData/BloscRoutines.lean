import Mathlib.Data.List.Basic
import QData.Lib.Lanes
import QData.ZstdModule
/-! The vectorized byte shuffles: with any instruction set they do what the plain loops do. -/
set_option autoImplicit false

namespace QData
open Words Lanes

variable {α : Type}

/-! One round of each routine, from the registers it loads to those it stores. -/

def shuffle8Sse2 (xmm0 : Nat → Reg α) : Nat → Reg α :=
  let xmm1 := fun k => unpacklo 1 (xmm0 k) (shuffleEpi32 (xmm0 k) 0x4e)
  let xmm0 := alternate (fun k => unpacklo 2 (xmm1 (2*k)) (xmm1 (2*k+1)))
    (fun k => unpackhi 2 (xmm1 (2*k)) (xmm1 (2*k+1)))
  let l := fun k => if k < 2 then k else k+2
  let xmm1 := alternate (fun k => unpacklo 4 (xmm0 (l k)) (xmm0 (l k+2)))
    (fun k => unpackhi 4 (xmm0 (l k)) (xmm0 (l k+2)))
  alternate (fun k => unpacklo 8 (xmm1 k) (xmm1 (k+4)))
    (fun k => unpackhi 8 (xmm1 k) (xmm1 (k+4)))

def shuffle8Avx2 (ymm0 : Nat → Reg α) : Nat → Reg α :=
  let ymm0 := shuffle8Sse2 ymm0
  let ymm1 := fun k => permute4x64 (ymm0 k) 0x72
  fun k => unpacklo 2 (permute4x64 (ymm0 k) 0xD8) (ymm1 k)

def shuffle4Sse2 (xmm0 : Nat → Reg α) : Nat → Reg α :=
  let xmm0 := fun j => unpacklo 1 (shuffleEpi32 (xmm0 j) 0xd8) (shuffleEpi32 (xmm0 j) 0x8d)
  let xmm0 := fun j => unpacklo 2 (xmm0 j) (shuffleEpi32 (xmm0 j) 0x04e)
  let xmm1 := alternate (fun j => unpacklo 4 (xmm0 (j*2)) (xmm0 (j*2+1)))
    (fun j => unpackhi 4 (xmm0 (j*2)) (xmm0 (j*2+1)))
  alternate (fun j => unpacklo 8 (xmm1 j) (xmm1 (j+2)))
    (fun j => unpackhi 8 (xmm1 j) (xmm1 (j+2)))

def shuffle4Avx2 (ymm0 : Nat → Reg α) : Nat → Reg α :=
  let mask := [0x00,0x04,0x01,0x05,0x02,0x06,0x03,0x07]
  let ymm0 := shuffle4Sse2 ymm0
  fun j => permutevar8x32 (ymm0 j) mask

def unshuffle4Words (xmm0 : Nat → Reg α) : Nat → Reg α :=
  let xmm1 := halves 2 (fun j => unpacklo 1 (xmm0 (j*2)) (xmm0 (j*2+1)))
    (fun j => unpackhi 1 (xmm0 (j*2)) (xmm0 (j*2+1)))
  halves 2 (fun j => unpacklo 2 (xmm1 (j*2)) (xmm1 (j*2+1)))
    (fun j => unpackhi 2 (xmm1 (j*2)) (xmm1 (j*2+1)))

/-- `unshuffle4_sse2`, whose stores are out of order. -/
def unshuffle4Sse2 (xmm0 : Nat → Reg α) : Nat → Reg α :=
  let xmm0 := unshuffle4Words xmm0
  fun j => xmm0 ([0,2,1,3].getD j 0)

def unshuffle4Avx2 (ymm0 : Nat → Reg α) : Nat → Reg α :=
  let ymm0 := unshuffle4Words ymm0
  halves 2 (fun j => permute2x128 (ymm0 j) (ymm0 (j+2)) 0x20)
    (fun j => permute2x128 (ymm0 j) (ymm0 (j+2)) 0x31)

def unshuffle8Step (e : Nat) (xmm : Nat → Reg α) : Nat → Reg α :=
  halves 4 (fun j => unpacklo e (xmm (j*2)) (xmm (j*2+1)))
    (fun j => unpackhi e (xmm (j*2)) (xmm (j*2+1)))

def unshuffle8Sse2 (xmm0 : Nat → Reg α) : Nat → Reg α :=
  let xmm1 := unshuffle8Step 4 (unshuffle8Step 2 (unshuffle8Step 1 xmm0))
  fun j => xmm1 ([0,4,2,6,1,5,3,7].getD j 0)

def unshuffle8Avx2 (ymm0 : Nat → Reg α) : Nat → Reg α :=
  let ymm0 := unshuffle8Step 2 (unshuffle8Step 1 ymm0)
  let ymm0 := fun j => permute4x64 (ymm0 j) 0xd8
  let ymm1 := unshuffle8Step 4 ymm0
  fun j => ymm1 ([0,2,1,3,4,6,5,7].getD j 0)

/-- Where a byte of a shuffled round comes from. -/
def shufflePlace (bytesoftype w k l : Nat) : Nat × Nat :=
  ((l*bytesoftype+k) / w,(l*bytesoftype+k) % w)

def unshufflePlace (bytesoftype w k l : Nat) : Nat × Nat :=
  ((k*w+l) % bytesoftype,(k*w+l) / bytesoftype)

section
variable (w bytesoftype : Nat) (round : Network) (dest src : Memory α)
  (vectorizableElements totalElements : Nat)

/-- The loop around a round of `shuffle4_*` or `shuffle8_*`, on registers of `w` bytes. -/
def shuffleLoop : Memory α :=
  (List.range ((vectorizableElements+w-1) / w)).foldl (fun dest t =>
    let j := t*w
    let ymm0 := round fun k => load src (j*bytesoftype+k*w)
    (List.range bytesoftype).foldl
      (fun dest k => store w (j+k*totalElements) (ymm0 k) dest) dest) dest

def unshuffleLoop : Memory α :=
  (List.range ((vectorizableElements+w-1) / w)).foldl (fun dest t =>
    let i := t*w
    let ymm1 := round fun j => load src (i+j*totalElements)
    (List.range bytesoftype).foldl
      (fun dest j => store w (i*bytesoftype+j*w) (ymm1 j) dest) dest) dest

end

section
variable (typeSize vectorizableElements blocksize : Nat) (src dest : Memory α)

def shuffleGenericInline : Memory α :=
  let neblockQuot := blocksize / typeSize
  (List.range typeSize).foldl (fun dest j =>
    (List.range' vectorizableElements (neblockQuot-vectorizableElements)).foldl
      (fun dest i => store 1 (j*neblockQuot+i) (load src (i*typeSize+j)) dest) dest) dest

def unshuffleGenericInline : Memory α :=
  let neblockQuot := blocksize / typeSize
  (List.range' vectorizableElements (neblockQuot-vectorizableElements)).foldl (fun dest i =>
    (List.range typeSize).foldl
      (fun dest j => store 1 (i*typeSize+j) (load src (j*neblockQuot+i)) dest) dest) dest

end

/-- What the compiler is told it may use. -/
inductive InstructionSet
  | avx2
  | sse2
  | neither

def InstructionSet.width : InstructionSet → Nat
  | .avx2 => 32
  | .sse2 => 16
  | .neither => 1

section
variable (isa : InstructionSet) (src dest : Memory α) (blocksize bytesoftype : Nat)

def vectorizableBytes : Nat :=
  let vectorizedChunkSize := bytesoftype*isa.width
  blocksize-blocksize % vectorizedChunkSize

/-- `blosc_shuffle`, which has vectorized routines for two sizes. -/
def bloscShuffleOn : Memory α :=
  let totalElements := blocksize / bytesoftype
  let vectorizableBytes := vectorizableBytes isa blocksize bytesoftype
  let vectorizableElements := vectorizableBytes / bytesoftype
  let dest := match isa,bytesoftype with
    | .avx2,4 => shuffleLoop 32 4 shuffle4Avx2 dest src vectorizableElements totalElements
    | .avx2,8 => shuffleLoop 32 8 shuffle8Avx2 dest src vectorizableElements totalElements
    | .sse2,4 => shuffleLoop 16 4 shuffle4Sse2 dest src vectorizableElements totalElements
    | .sse2,8 => shuffleLoop 16 8 shuffle8Sse2 dest src vectorizableElements totalElements
    | _,_ => dest
  match isa with
  | .neither => shuffleGenericInline bytesoftype 0 blocksize src dest
  | _ =>
      if blocksize ≠ vectorizableBytes then
        shuffleGenericInline bytesoftype vectorizableElements blocksize src dest
      else dest

def bloscUnshuffleOn : Memory α :=
  let totalElements := blocksize / bytesoftype
  let vectorizableBytes := vectorizableBytes isa blocksize bytesoftype
  let vectorizableElements := vectorizableBytes / bytesoftype
  let dest := match isa,bytesoftype with
    | .avx2,4 => unshuffleLoop 32 4 unshuffle4Avx2 dest src vectorizableElements totalElements
    | .avx2,8 => unshuffleLoop 32 8 unshuffle8Avx2 dest src vectorizableElements totalElements
    | .sse2,4 => unshuffleLoop 16 4 unshuffle4Sse2 dest src vectorizableElements totalElements
    | .sse2,8 => unshuffleLoop 16 8 unshuffle8Sse2 dest src vectorizableElements totalElements
    | _,_ => dest
  match isa with
  | .neither => unshuffleGenericInline bytesoftype 0 blocksize src dest
  | _ => unshuffleGenericInline bytesoftype vectorizableElements blocksize src dest

end

/-! A round only moves bytes, and moves them to their places. -/

theorem shuffle8Sse2_natural : Natural shuffle8Sse2 := by
  intro α β f regs k
  simp only [shuffle8Sse2,shuffleEpi32_comp,unpacklo_comp,unpackhi_comp,alternate_comp]

theorem shuffle8Avx2_natural : Natural shuffle8Avx2 := by
  intro α β f regs k
  simp only [shuffle8Avx2,shuffle8Sse2_natural f,permute4x64_comp,unpacklo_comp]

theorem shuffle4Sse2_natural : Natural shuffle4Sse2 := by
  intro α β f regs k
  simp only [shuffle4Sse2,shuffleEpi32_comp,unpacklo_comp,unpackhi_comp,alternate_comp]

theorem shuffle4Avx2_natural : Natural shuffle4Avx2 := by
  intro α β f regs k
  simp only [shuffle4Avx2,shuffle4Sse2_natural f,permutevar8x32_comp]

theorem unshuffle4Words_natural : Natural unshuffle4Words := by
  intro α β f regs k
  simp only [unshuffle4Words,unpacklo_comp,unpackhi_comp,halves_comp]

theorem unshuffle4Sse2_natural : Natural unshuffle4Sse2 := by
  intro α β f regs k
  simp only [unshuffle4Sse2,unshuffle4Words_natural f]

theorem unshuffle4Avx2_natural : Natural unshuffle4Avx2 := by
  intro α β f regs k
  simp only [unshuffle4Avx2,unshuffle4Words_natural f,permute2x128_comp,halves_comp]

theorem unshuffle8Step_natural (e : Nat) : Natural (unshuffle8Step e) := by
  intro α β f regs k
  simp only [unshuffle8Step,unpacklo_comp,unpackhi_comp,halves_comp]

theorem unshuffle8Sse2_natural : Natural unshuffle8Sse2 := by
  intro α β f regs k
  simp only [unshuffle8Sse2,Natural.image (unshuffle8Step_natural _) f]

theorem unshuffle8Avx2_natural : Natural unshuffle8Avx2 := by
  intro α β f regs k
  simp only [unshuffle8Avx2,Natural.image (unshuffle8Step_natural _) f,permute4x64_comp]

theorem shuffle8Sse2_moves : Moves shuffle8Sse2 8 16 (shufflePlace 8 16) := by decide +kernel
theorem shuffle8Avx2_moves : Moves shuffle8Avx2 8 32 (shufflePlace 8 32) := by decide +kernel
theorem shuffle4Sse2_moves : Moves shuffle4Sse2 4 16 (shufflePlace 4 16) := by decide +kernel
theorem shuffle4Avx2_moves : Moves shuffle4Avx2 4 32 (shufflePlace 4 32) := by decide +kernel

theorem unshuffle8Sse2_moves : Moves unshuffle8Sse2 8 16 (unshufflePlace 8 16) := by
  decide +kernel

theorem unshuffle8Avx2_moves : Moves unshuffle8Avx2 8 32 (unshufflePlace 8 32) := by
  decide +kernel

theorem unshuffle4Sse2_moves : Moves unshuffle4Sse2 4 16 (unshufflePlace 4 16) := by
  decide +kernel

theorem unshuffle4Avx2_moves : Moves unshuffle4Avx2 4 32 (unshufflePlace 4 32) := by
  decide +kernel

/-! What the loops write is the transposed matrix. -/

/-- `dest[j*neblock_quot+i] = src[i*type_size+j]`. -/
def shuffled (typeSize neblockQuot : Nat) (src : Memory α) : Memory α := fun p =>
  src (p % neblockQuot*typeSize+p / neblockQuot)

def unshuffled (typeSize neblockQuot : Nat) (src : Memory α) : Memory α := fun p =>
  src (p % typeSize*neblockQuot+p / typeSize)

section
variable {typeSize neblockQuot i j : Nat}

theorem shuffled_apply (src : Memory α) (hi : i < neblockQuot) :
    shuffled typeSize neblockQuot src (j*neblockQuot+i) = src (i*typeSize+j) := by
  rw [shuffled,Nat.add_comm (j*neblockQuot),Nat.add_mul_mod_self_right,Nat.mod_eq_of_lt hi,
    Nat.add_mul_div_right _ _ (by omega),Nat.div_eq_of_lt hi,Nat.zero_add]

theorem unshuffled_apply (src : Memory α) (hj : j < typeSize) :
    unshuffled typeSize neblockQuot src (i*typeSize+j) = src (j*neblockQuot+i) := by
  rw [unshuffled,Nat.add_comm (i*typeSize),Nat.add_mul_mod_self_right,Nat.mod_eq_of_lt hj,
    Nat.add_mul_div_right _ _ (by omega),Nat.div_eq_of_lt hj,Nat.zero_add]

end

section
variable {w bytesoftype n total : Nat} {round : Network} {dest src : Memory α}

theorem rounds_eq (hw : 0 < w) (n : Nat) : (n*w+w-1) / w = n := by
  rw [Nat.add_sub_assoc hw,Nat.add_comm,Nat.add_mul_div_right _ _ hw,
    Nat.div_eq_of_lt (by omega),Nat.zero_add]

theorem shuffleLoop_wrote (hnatural : Natural round)
    (hmoves : Moves round bytesoftype w (shufflePlace bytesoftype w)) (hw : 0 < w)
    (hn : n*w ≤ total) :
    Wrote (shuffled bytesoftype total src) dest
      (fun p => ∃ j < bytesoftype, ∃ i < n*w, p = j*total+i)
      (shuffleLoop w bytesoftype round dest src (n*w) total) := by
  have hloop : Wrote (shuffled bytesoftype total src) dest
      (fun p => False ∨ ∃ t ∈ List.range n, ∃ k ∈ List.range bytesoftype,
        t*w+k*total ≤ p ∧ p < t*w+k*total+w)
      (shuffleLoop w bytesoftype round dest src (n*w) total) := by
    rw [shuffleLoop,rounds_eq hw]
    refine (Wrote.start _ dest).loop fun t ht done mem hmem => ?_
    refine hmem.loop fun k hk done mem hmem => hmem.store fun l hl => ?_
    rw [List.mem_range] at ht hk
    have hrow : t*w+l < n*w := by
      have hle : (t+1)*w ≤ n*w := Nat.mul_le_mul_right w ht
      rw [Nat.succ_mul] at hle
      omega
    have hplace : t*w+k*total+l = k*total+(t*w+l) := by omega
    have hsource : t*w*bytesoftype+(l*bytesoftype+k) / w*w+(l*bytesoftype+k) % w =
        (t*w+l)*bytesoftype+k := by
      rw [Nat.add_assoc,Nat.div_add_mod',Nat.add_mul,Nat.add_assoc]
    rw [hnatural.reads hmoves hk hl,hplace,shuffled_apply src (by omega),← hsource]
    rfl
  refine hloop.congr fun p => ?_
  simp only [List.mem_range,false_or]
  constructor
  · rintro ⟨t,ht,k,hk,hlo,hhi⟩
    have hle : (t+1)*w ≤ n*w := Nat.mul_le_mul_right w ht
    rw [Nat.succ_mul] at hle
    exact ⟨k,hk,p-k*total,by omega,by omega⟩
  · rintro ⟨k,hk,i,hi,rfl⟩
    have hsplit := Nat.div_add_mod' i w
    have hlt := Nat.mod_lt i hw
    exact ⟨i / w,(Nat.div_lt_iff_lt_mul hw).mpr hi,k,hk,by omega,by omega⟩

theorem unshuffleLoop_wrote (hnatural : Natural round)
    (hmoves : Moves round bytesoftype w (unshufflePlace bytesoftype w)) (hw : 0 < w)
    (hb : 0 < bytesoftype) :
    Wrote (unshuffled bytesoftype total src) dest
      (fun p => ∃ i < n*w, ∃ j < bytesoftype, p = i*bytesoftype+j)
      (unshuffleLoop w bytesoftype round dest src (n*w) total) := by
  have hloop : Wrote (unshuffled bytesoftype total src) dest
      (fun p => False ∨ ∃ t ∈ List.range n, ∃ k ∈ List.range bytesoftype,
        t*w*bytesoftype+k*w ≤ p ∧ p < t*w*bytesoftype+k*w+w)
      (unshuffleLoop w bytesoftype round dest src (n*w) total) := by
    rw [unshuffleLoop,rounds_eq hw]
    refine (Wrote.start _ dest).loop fun t ht done mem hmem => ?_
    refine hmem.loop fun k hk done mem hmem => hmem.store fun l hl => ?_
    rw [List.mem_range] at ht hk
    have hplace : t*w*bytesoftype+k*w+l =
        (t*w+(k*w+l) / bytesoftype)*bytesoftype+(k*w+l) % bytesoftype := by
      rw [Nat.add_mul,Nat.add_assoc,Nat.add_assoc,Nat.div_add_mod']
    have hsource : t*w+(k*w+l) % bytesoftype*total+(k*w+l) / bytesoftype =
        (k*w+l) % bytesoftype*total+(t*w+(k*w+l) / bytesoftype) := by omega
    rw [hnatural.reads hmoves hk hl,hplace,unshuffled_apply src (Nat.mod_lt _ hb),← hsource]
    rfl
  refine hloop.congr fun p => ?_
  simp only [List.mem_range,false_or]
  constructor
  · rintro ⟨t,ht,k,hk,hlo,hhi⟩
    have hround : (t+1)*(w*bytesoftype) ≤ n*(w*bytesoftype) := Nat.mul_le_mul_right _ ht
    have hregister : (k+1)*w ≤ bytesoftype*w := Nat.mul_le_mul_right w hk
    rw [Nat.succ_mul] at hround hregister
    rw [Nat.mul_assoc] at hlo hhi
    rw [Nat.mul_comm bytesoftype] at hregister
    refine ⟨p / bytesoftype,?_,p % bytesoftype,Nat.mod_lt _ hb,(Nat.div_add_mod' _ _).symm⟩
    rw [Nat.div_lt_iff_lt_mul hb,Nat.mul_assoc]
    omega
  · rintro ⟨i,hi,j,hj,rfl⟩
    have hsplit := Nat.div_add_mod' i w
    have hinside : i % w*bytesoftype+j < bytesoftype*w := by
      have hle : (i % w+1)*bytesoftype ≤ w*bytesoftype :=
        Nat.mul_le_mul_right _ (Nat.mod_lt i hw)
      rw [Nat.succ_mul] at hle
      rw [Nat.mul_comm bytesoftype]
      omega
    have hregister := Nat.div_add_mod' (i % w*bytesoftype+j) w
    have hlt := Nat.mod_lt (i % w*bytesoftype+j) hw
    have hwhole : i*bytesoftype = i / w*w*bytesoftype+i % w*bytesoftype := by
      rw [← Nat.add_mul,hsplit]
    refine ⟨i / w,(Nat.div_lt_iff_lt_mul hw).mpr hi,(i % w*bytesoftype+j) / w,
      (Nat.div_lt_iff_lt_mul hw).mpr hinside,by omega,by omega⟩

end

section
variable {typeSize vectorizable blocksize : Nat} {dest old src : Memory α}

theorem shuffleGenericInline_wrote (hle : vectorizable ≤ blocksize / typeSize)
    (h : Wrote (shuffled typeSize (blocksize / typeSize) src) old
      (fun p => ∃ j < typeSize, ∃ i < vectorizable, p = j*(blocksize / typeSize)+i) dest) :
    Wrote (shuffled typeSize (blocksize / typeSize) src) old
      (fun p => p < blocksize / typeSize*typeSize)
      (shuffleGenericInline typeSize vectorizable blocksize src dest) := by
  rw [shuffleGenericInline]
  generalize blocksize / typeSize = total at *
  have hloop : Wrote _ old (fun p => _ ∨ ∃ j ∈ List.range typeSize,
      ∃ i ∈ List.range' vectorizable (total-vectorizable), j*total+i ≤ p ∧ p < j*total+i+1)
      ((List.range typeSize).foldl (fun dest j =>
        (List.range' vectorizable (total-vectorizable)).foldl
          (fun dest i => store 1 (j*total+i) (load src (i*typeSize+j)) dest) dest) dest) :=
    h.loop fun j hj done mem hmem => hmem.loop fun i hi done mem hmem => hmem.store fun l hl => by
      rw [List.mem_range'_1] at hi
      have hl : l = 0 := by omega
      subst hl
      rw [Nat.add_zero,shuffled_apply src (by omega),load,Nat.add_zero]
  refine hloop.congr fun p => ?_
  simp only [List.mem_range,List.mem_range'_1]
  constructor
  · have hrow : ∀ j i, j < typeSize → i < total → j*total+i < total*typeSize := by
      intro j i hj hi
      have hle : (j+1)*total ≤ typeSize*total := Nat.mul_le_mul_right total hj
      rw [Nat.succ_mul,Nat.mul_comm typeSize] at hle
      omega
    rintro (⟨j,hj,i,hi,rfl⟩ | ⟨j,hj,i,hi,hlo,hhi⟩)
    · exact hrow j i hj (by omega)
    · have hp : p = j*total+i := by omega
      subst hp
      exact hrow j i hj (by omega)
  · intro hp
    have htotal : 0 < total := Nat.pos_of_ne_zero (by rintro rfl; simp at hp)
    have hj : p / total < typeSize := (Nat.div_lt_iff_lt_mul htotal).mpr (by rwa [Nat.mul_comm])
    have hi := Nat.mod_lt p htotal
    have hsplit := Nat.div_add_mod' p total
    by_cases hv : p % total < vectorizable
    · exact .inl ⟨p / total,hj,p % total,hv,hsplit.symm⟩
    · exact .inr ⟨p / total,hj,p % total,by omega,by omega,by omega⟩

theorem unshuffleGenericInline_wrote (hle : vectorizable ≤ blocksize / typeSize)
    (h : Wrote (unshuffled typeSize (blocksize / typeSize) src) old
      (fun p => ∃ i < vectorizable, ∃ j < typeSize, p = i*typeSize+j) dest) :
    Wrote (unshuffled typeSize (blocksize / typeSize) src) old
      (fun p => p < blocksize / typeSize*typeSize)
      (unshuffleGenericInline typeSize vectorizable blocksize src dest) := by
  rw [unshuffleGenericInline]
  generalize blocksize / typeSize = total at *
  have hloop : Wrote _ old (fun p => _ ∨ ∃ i ∈ List.range' vectorizable (total-vectorizable),
      ∃ j ∈ List.range typeSize, i*typeSize+j ≤ p ∧ p < i*typeSize+j+1)
      ((List.range' vectorizable (total-vectorizable)).foldl (fun dest i =>
        (List.range typeSize).foldl
          (fun dest j => store 1 (i*typeSize+j) (load src (j*total+i)) dest) dest) dest) :=
    h.loop fun i hi done mem hmem => hmem.loop fun j hj done mem hmem => hmem.store fun l hl => by
      rw [List.mem_range] at hj
      have hl : l = 0 := by omega
      subst hl
      rw [Nat.add_zero,unshuffled_apply src hj,load,Nat.add_zero]
  refine hloop.congr fun p => ?_
  simp only [List.mem_range,List.mem_range'_1]
  constructor
  · have hrow : ∀ i j, i < total → j < typeSize → i*typeSize+j < total*typeSize := by
      intro i j hi hj
      have hle : (i+1)*typeSize ≤ total*typeSize := Nat.mul_le_mul_right typeSize hi
      rw [Nat.succ_mul] at hle
      omega
    rintro (⟨i,hi,j,hj,rfl⟩ | ⟨i,hi,j,hj,hlo,hhi⟩)
    · exact hrow i j (by omega) hj
    · have hp : p = i*typeSize+j := by omega
      subst hp
      exact hrow i j (by omega) hj
  · intro hp
    have hsize : 0 < typeSize := Nat.pos_of_ne_zero (by rintro rfl; simp at hp)
    have hi : p / typeSize < total := (Nat.div_lt_iff_lt_mul hsize).mpr hp
    have hj := Nat.mod_lt p hsize
    have hsplit := Nat.div_add_mod' p typeSize
    by_cases hv : p / typeSize < vectorizable
    · exact .inl ⟨p / typeSize,hv,p % typeSize,hj,hsplit.symm⟩
    · exact .inr ⟨p / typeSize,by omega,p % typeSize,hj,by omega,by omega⟩

end

section
variable {w bytesoftype blocksize : Nat} {round : Network} {dest src : Memory α}

theorem vectorizable_eq (hb : 0 < bytesoftype) :
    (blocksize-blocksize % (bytesoftype*w)) / bytesoftype = blocksize / (bytesoftype*w)*w ∧
      blocksize / (bytesoftype*w)*w ≤ blocksize / bytesoftype := by
  have hsplit := Nat.div_add_mod' blocksize (bytesoftype*w)
  have hwhole : blocksize-blocksize % (bytesoftype*w) =
      blocksize / (bytesoftype*w)*w*bytesoftype := by
    rw [Nat.mul_assoc,Nat.mul_comm w]
    omega
  refine ⟨by rw [hwhole,Nat.mul_div_cancel _ hb],?_⟩
  rw [Nat.le_div_iff_mul_le hb,← hwhole]
  exact Nat.sub_le _ _

theorem shuffle_wrote (hnatural : Natural round)
    (hmoves : Moves round bytesoftype w (shufflePlace bytesoftype w)) (hw : 0 < w)
    (hb : 0 < bytesoftype) :
    let vectorizableBytes := blocksize-blocksize % (bytesoftype*w)
    let vectorizableElements := vectorizableBytes / bytesoftype
    let vectorized := shuffleLoop w bytesoftype round dest src vectorizableElements
      (blocksize / bytesoftype)
    Wrote (shuffled bytesoftype (blocksize / bytesoftype) src) dest
      (fun p => p < blocksize / bytesoftype*bytesoftype)
      (if blocksize ≠ vectorizableBytes then
        shuffleGenericInline bytesoftype vectorizableElements blocksize src vectorized
      else vectorized) := by
  obtain ⟨helements,hle⟩ := @vectorizable_eq w bytesoftype blocksize hb
  have hfirst : Wrote (shuffled bytesoftype _ src) dest _ _ :=
    shuffleLoop_wrote hnatural hmoves hw hle
  simp only [helements]
  have hall := shuffleGenericInline_wrote hle hfirst
  split
  · exact hall
  · next hwhole =>
    -- with nothing left the plain loops would not have done anything
    have hnone : blocksize / bytesoftype-blocksize / (bytesoftype*w)*w = 0 := by
      rw [← helements,← Decidable.not_not.mp hwhole,Nat.sub_self]
    rw [shuffleGenericInline] at hall
    simpa only [hnone,List.range'_zero,List.foldl_nil,List.foldl_fixed] using hall

theorem unshuffle_wrote (hnatural : Natural round)
    (hmoves : Moves round bytesoftype w (unshufflePlace bytesoftype w)) (hw : 0 < w)
    (hb : 0 < bytesoftype) :
    let vectorizableElements := (blocksize-blocksize % (bytesoftype*w)) / bytesoftype
    Wrote (unshuffled bytesoftype (blocksize / bytesoftype) src) dest
      (fun p => p < blocksize / bytesoftype*bytesoftype)
      (unshuffleGenericInline bytesoftype vectorizableElements blocksize src
        (unshuffleLoop w bytesoftype round dest src vectorizableElements
          (blocksize / bytesoftype))) := by
  obtain ⟨helements,hle⟩ := @vectorizable_eq w bytesoftype blocksize hb
  simp only [helements]
  exact unshuffleGenericInline_wrote hle (unshuffleLoop_wrote hnatural hmoves hw hb)

end

section
variable {isa : InstructionSet} {dest src : Memory α} {blocksize bytesoftype : Nat}

theorem bloscShuffleOn_wrote (h : bytesoftype = 4 ∨ bytesoftype = 8) :
    Wrote (shuffled bytesoftype (blocksize / bytesoftype) src) dest
      (fun p => p < blocksize / bytesoftype*bytesoftype)
      (bloscShuffleOn isa src dest blocksize bytesoftype) := by
  rcases h with rfl | rfl
  · cases isa with
    | avx2 => exact shuffle_wrote shuffle4Avx2_natural shuffle4Avx2_moves (by decide) (by decide)
    | sse2 => exact shuffle_wrote shuffle4Sse2_natural shuffle4Sse2_moves (by decide) (by decide)
    | neither =>
      exact shuffleGenericInline_wrote (Nat.zero_le _)
        ((Wrote.start _ dest).congr fun p => by simp)
  · cases isa with
    | avx2 => exact shuffle_wrote shuffle8Avx2_natural shuffle8Avx2_moves (by decide) (by decide)
    | sse2 => exact shuffle_wrote shuffle8Sse2_natural shuffle8Sse2_moves (by decide) (by decide)
    | neither =>
      exact shuffleGenericInline_wrote (Nat.zero_le _)
        ((Wrote.start _ dest).congr fun p => by simp)

theorem bloscUnshuffleOn_wrote (h : bytesoftype = 4 ∨ bytesoftype = 8) :
    Wrote (unshuffled bytesoftype (blocksize / bytesoftype) src) dest
      (fun p => p < blocksize / bytesoftype*bytesoftype)
      (bloscUnshuffleOn isa src dest blocksize bytesoftype) := by
  rcases h with rfl | rfl
  · cases isa with
    | avx2 =>
      exact unshuffle_wrote unshuffle4Avx2_natural unshuffle4Avx2_moves (by decide) (by decide)
    | sse2 =>
      exact unshuffle_wrote unshuffle4Sse2_natural unshuffle4Sse2_moves (by decide) (by decide)
    | neither =>
      exact unshuffleGenericInline_wrote (Nat.zero_le _)
        ((Wrote.start _ dest).congr fun p => by simp)
  · cases isa with
    | avx2 =>
      exact unshuffle_wrote unshuffle8Avx2_natural unshuffle8Avx2_moves (by decide) (by decide)
    | sse2 =>
      exact unshuffle_wrote unshuffle8Sse2_natural unshuffle8Sse2_moves (by decide) (by decide)
    | neither =>
      exact unshuffleGenericInline_wrote (Nat.zero_le _)
        ((Wrote.start _ dest).congr fun p => by simp)

end

def inBuffer (bs : Bytes) : Memory UInt8 := fun p => bs.getD p 0

def outOfBuffer (n : Nat) (mem : Memory UInt8) : Bytes := (List.range n).map mem

theorem outOfBuffer_rows {m n : Nat} {mem : Memory UInt8} {entry : Nat → Nat → UInt8}
    (h : ∀ i < m, ∀ j < n, mem (i*n+j) = entry i j) :
    outOfBuffer (m*n) mem = Transposition.rows m n entry := by
  have hlen : (outOfBuffer (m*n) mem).length = m*n := by simp [outOfBuffer]
  rw [← Transposition.rows_getD 0 hlen]
  refine Transposition.rows_congr fun i hi j hj => ?_
  have hp : i*n+j < m*n := by
    have hle : (i+1)*n ≤ m*n := Nat.mul_le_mul_right n hi
    rw [Nat.succ_mul] at hle
    omega
  rw [← h i hi j hj]
  simp [outOfBuffer,hp]

theorem outOfBuffer_inBuffer (bs : Bytes) : outOfBuffer bs.length (inBuffer bs) = bs := by
  refine List.ext_getElem (by simp [outOfBuffer]) fun p hp hbs => ?_
  simp [outOfBuffer,inBuffer,hbs]

section
variable {isa : InstructionSet} {dest : Memory UInt8} {bytesoftype : Nat}

theorem outOfBuffer_shuffleOn (h : bytesoftype = 4 ∨ bytesoftype = 8) (bs : Bytes) :
    outOfBuffer (bytesoftype*(bs.length / bytesoftype))
        (bloscShuffleOn isa (inBuffer bs) dest bs.length bytesoftype) =
      bloscShuffle bytesoftype bs := by
  have hwrote : Wrote _ dest _ (bloscShuffleOn isa (inBuffer bs) dest bs.length bytesoftype) :=
    bloscShuffleOn_wrote h
  rw [bloscShuffle,Transposition.transpose]
  refine outOfBuffer_rows fun j hj i hi => ?_
  have hp : j*(bs.length / bytesoftype)+i < bs.length / bytesoftype*bytesoftype := by
    have hle := Nat.mul_le_mul_right (bs.length / bytesoftype) (Nat.succ_le_of_lt hj)
    rw [Nat.succ_mul,Nat.mul_comm bytesoftype] at hle
    omega
  rw [hwrote.written _ hp,shuffled_apply _ hi,inBuffer]

theorem outOfBuffer_unshuffleOn (h : bytesoftype = 4 ∨ bytesoftype = 8) (bs : Bytes) :
    outOfBuffer (bs.length / bytesoftype*bytesoftype)
        (bloscUnshuffleOn isa (inBuffer bs) dest bs.length bytesoftype) =
      bloscUnshuffle bytesoftype bs := by
  have hwrote : Wrote _ dest _ (bloscUnshuffleOn isa (inBuffer bs) dest bs.length bytesoftype) :=
    bloscUnshuffleOn_wrote h
  rw [bloscUnshuffle,Transposition.transpose]
  refine outOfBuffer_rows fun i hi j hj => ?_
  have hp : i*bytesoftype+j < bs.length / bytesoftype*bytesoftype := by
    have hle := Nat.mul_le_mul_right bytesoftype (Nat.succ_le_of_lt hi)
    rw [Nat.succ_mul] at hle
    omega
  rw [hwrote.written _ hp,unshuffled_apply _ hj,inBuffer]

end

/-- The vectorized shuffles, whatever the buffers held: they write what the plain transposition
is and nothing behind it, and what one machine has shuffled any other puts back. -/
theorem blosc_any_instructions {bytesoftype : Nat} (h : bytesoftype = 4 ∨ bytesoftype = 8)
    (isa isa' : InstructionSet) (dest dest' : Memory UInt8) (bs : Bytes) :
    let whole := bytesoftype*(bs.length / bytesoftype)
    let sent := bloscShuffleOn isa (inBuffer bs) dest bs.length bytesoftype
    let back := bloscUnshuffleOn isa (inBuffer bs) dest bs.length bytesoftype
    outOfBuffer whole sent = bloscShuffle bytesoftype bs ∧
    outOfBuffer whole back = bloscUnshuffle bytesoftype bs ∧
    (∀ p, whole ≤ p → sent p = dest p ∧ back p = dest p) ∧
    (bs.length % bytesoftype = 0 →
      outOfBuffer bs.length (bloscUnshuffleOn isa' sent dest' bs.length bytesoftype) = bs) := by
  intro whole sent back
  have hpos : 0 < bytesoftype := by omega
  have hsent : Wrote (shuffled bytesoftype (bs.length / bytesoftype) (inBuffer bs)) dest _ sent :=
    bloscShuffleOn_wrote h
  have hback : Wrote (unshuffled bytesoftype (bs.length / bytesoftype) (inBuffer bs)) dest _ back :=
    bloscUnshuffleOn_wrote h
  have hwhole : whole = bs.length / bytesoftype*bytesoftype := Nat.mul_comm _ _
  refine ⟨outOfBuffer_shuffleOn h bs,by rw [hwhole]; exact outOfBuffer_unshuffleOn h bs,
    fun p hp => ?_,fun hmod => ?_⟩
  · rw [hwhole] at hp
    exact ⟨hsent.kept p (Nat.not_lt.mpr hp),hback.kept p (Nat.not_lt.mpr hp)⟩
  · have hlen : bs.length / bytesoftype*bytesoftype = bs.length := by
      have hsplit := Nat.div_add_mod' bs.length bytesoftype
      omega
    have hput : Wrote _ dest' _ (bloscUnshuffleOn isa' sent dest' bs.length bytesoftype) :=
      bloscUnshuffleOn_wrote h
    rw [hlen] at hput hsent
    refine Eq.trans (List.map_congr_left fun p hp => ?_) (outOfBuffer_inBuffer bs)
    rw [List.mem_range] at hp
    have hrow : p / bytesoftype < bs.length / bytesoftype :=
      (Nat.div_lt_iff_lt_mul hpos).mpr (by rwa [hlen])
    have hcolumn := Nat.mod_lt p hpos
    have hplace : p % bytesoftype*(bs.length / bytesoftype)+p / bytesoftype < bs.length := by
      have hle := Nat.mul_le_mul_right (bs.length / bytesoftype) (Nat.succ_le_of_lt hcolumn)
      rw [Nat.succ_mul,Nat.mul_comm bytesoftype,hlen] at hle
      omega
    rw [hput.written p hp,unshuffled,hsent.written _ hplace,shuffled_apply _ hrow,
      Nat.div_add_mod']

/-- A whole round, and a remainder that the plain loops take. -/
theorem blosc_any_instructions_wide :
    outOfBuffer 304 (bloscUnshuffleOn .neither (bloscShuffleOn .avx2
      (inBuffer ((List.range 304).map UInt8.ofNat)) (fun _ => 7) 304 8) (fun _ => 9) 304 8) =
      (List.range 304).map UInt8.ofNat := by
  have h := (blosc_any_instructions (.inr rfl) .avx2 .neither (fun _ => 7) (fun _ => 9)
    ((List.range 304).map UInt8.ofNat)).2.2.2
  simp only [List.length_map,List.length_range] at h
  exact h trivial

end QData
