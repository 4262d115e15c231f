import Mathlib.Data.Fintype.Basic
import Mathlib.Tactic.FinCases
import Mathlib.Tactic.Ring
import QData.Xxh3
/-! The vectorized stripes of XXH3 and the portable long multiplication compute what the
scalar code and the 128-bit type compute. -/
set_option autoImplicit false

namespace QData
namespace Xxh3
open Words

abbrev Epi64 := Nat → UInt64

namespace Epi64

def loadu (p : Bytes) : Epi64 := fun i => readLE64 (p.drop (i*8))
def xor (a b : Epi64) : Epi64 := fun i => a i ^^^ b i
def add (a b : Epi64) : Epi64 := fun i => a i+b i
def srli (a : Epi64) (n : UInt64) : Epi64 := fun i => a i >>> n
def slli (a : Epi64) (n : UInt64) : Epi64 := fun i => a i <<< n

/-- The product of the low halves of each element. -/
def mulEpu32 (a b : Epi64) : Epi64 := fun i => mult32to64 (a i) (b i)

def set1Epi32 (x : UInt32) : Epi64 := fun _ => x.toUInt64 ||| (x.toUInt64 <<< 32)

def dword (a : Epi64) (d : Nat) : UInt64 :=
  if d % 2 = 0 then a (d / 2) &&& 0xffffffff else a (d / 2) >>> 32

def shuffleEpi32 (a : Epi64) (imm : Nat) : Epi64 := fun i =>
  let chosen := fun d => dword a (i / 2*4+imm / 4 ^ d % 4)
  chosen (i % 2*2) ||| (chosen (i % 2*2+1) <<< 32)

def xor3 (a b c : Epi64) : Epi64 := fun i => a i ^^^ b i ^^^ c i

end Epi64

open Epi64

/-- `acc` as `xacc`: its registers of `q` elements. -/
def register (q : Nat) (acc : Accs) (i : Nat) : Epi64 := fun j => acc[i*q+j]?.getD 0

def forRegisters (q : Nat) (acc : Accs) (f : Nat → Epi64 → Epi64) : Accs :=
  (List.range (stripeLen / (8*q))).foldl (fun acc i =>
    let xacc := f i (register q acc i)
    Vector.ofFn fun lane => if lane / q = i then xacc (lane % q) else acc.get lane) acc

def accumulate512Sse2 (acc : Accs) (input secret : Bytes) : Accs :=
  forRegisters 2 acc fun i xacc =>
    let dataVec := loadu (input.drop (i*(8*2)))
    let keyVec := loadu (secret.drop (i*(8*2)))
    let dataKey := dataVec.xor keyVec
    let dataKeyLo := dataKey.shuffleEpi32 0x31
    let product := dataKey.mulEpu32 dataKeyLo
    let dataSwap := dataVec.shuffleEpi32 0x4e
    let sum := xacc.add dataSwap
    product.add sum

/-- `XXH3_accumulate_512_avx2`, and with 64 bytes `XXH3_accumulate_512_avx512`. -/
def accumulate512Wide (q : Nat) (acc : Accs) (input secret : Bytes) : Accs :=
  forRegisters q acc fun i xacc =>
    let dataVec := loadu (input.drop (i*(8*q)))
    let keyVec := loadu (secret.drop (i*(8*q)))
    let dataKey := dataVec.xor keyVec
    let dataKeyLo := dataKey.srli 32
    let product := dataKey.mulEpu32 dataKeyLo
    let dataSwap := dataVec.shuffleEpi32 0x4e
    let sum := xacc.add dataSwap
    product.add sum

def accumulate512Avx2 (acc : Accs) (input secret : Bytes) : Accs :=
  accumulate512Wide 4 acc input secret

def accumulate512Avx512 (acc : Accs) (input secret : Bytes) : Accs :=
  accumulate512Wide 8 acc input secret

def scrambleAccSse2 (acc : Accs) (secret : Bytes) : Accs :=
  forRegisters 2 acc fun i accVec =>
    let prime32 := set1Epi32 prime32_1.toUInt32
    let shifted := accVec.srli 47
    let dataVec := accVec.xor shifted
    let keyVec := loadu (secret.drop (i*(8*2)))
    let dataKey := dataVec.xor keyVec
    let dataKeyHi := dataKey.shuffleEpi32 0x31
    let prodLo := dataKey.mulEpu32 prime32
    let prodHi := dataKeyHi.mulEpu32 prime32
    prodLo.add (prodHi.slli 32)

def scrambleAccAvx2 (acc : Accs) (secret : Bytes) : Accs :=
  forRegisters 4 acc fun i accVec =>
    let prime32 := set1Epi32 prime32_1.toUInt32
    let shifted := accVec.srli 47
    let dataVec := accVec.xor shifted
    let keyVec := loadu (secret.drop (i*(8*4)))
    let dataKey := dataVec.xor keyVec
    let dataKeyHi := dataKey.srli 32
    let prodLo := dataKey.mulEpu32 prime32
    let prodHi := dataKeyHi.mulEpu32 prime32
    prodLo.add (prodHi.slli 32)

/-- `XXH3_scrambleAcc_avx512`: one register, and one exclusive or of three. -/
def scrambleAccAvx512 (acc : Accs) (secret : Bytes) : Accs :=
  forRegisters 8 acc fun i accVec =>
    let prime32 := set1Epi32 prime32_1.toUInt32
    let shifted := accVec.srli 47
    let keyVec := loadu (secret.drop (i*(8*8)))
    let dataKey := keyVec.xor3 accVec shifted
    let dataKeyHi := dataKey.srli 32
    let prodLo := dataKey.mulEpu32 prime32
    let prodHi := dataKeyHi.mulEpu32 prime32
    prodLo.add (prodHi.slli 32)

/-- `XXH_mult64to128` without a 128-bit type: the grade school multiplication. -/
def mult64to128Portable (lhs rhs : UInt64) : UInt64 × UInt64 :=
  let loLo := mult32to64 (lhs &&& 0xFFFFFFFF) (rhs &&& 0xFFFFFFFF)
  let hiLo := mult32to64 (lhs >>> 32) (rhs &&& 0xFFFFFFFF)
  let loHi := mult32to64 (lhs &&& 0xFFFFFFFF) (rhs >>> 32)
  let hiHi := mult32to64 (lhs >>> 32) (rhs >>> 32)
  let cross := (loLo >>> 32)+(hiLo &&& 0xFFFFFFFF)+loHi
  let upper := (hiLo >>> 32)+(cross >>> 32)+hiHi
  let lower := (cross <<< 32) ||| (loLo &&& 0xFFFFFFFF)
  (lower,upper)

/-! What one lane gets. -/

theorem get_lane (acc : Accs) (l : Fin 8) : acc.get l = acc[l] := rfl

theorem scalarRound_lane (acc : Accs) (input secret : Bytes) (lane l : Fin 8) :
    (scalarRound acc input secret lane)[l] =
      if l = lane then
        mult32to64 (readLE64 (input.drop (l*8)) ^^^ readLE64 (secret.drop (l*8)))
          ((readLE64 (input.drop (l*8)) ^^^ readLE64 (secret.drop (l*8))) >>> 32)+acc[l]
      else if l = lane ^^^ 1 then acc[l]+readLE64 (input.drop (lane*8))
      else acc[l] := by
  have hne : lane ^^^ 1 ≠ lane := by revert lane; decide
  by_cases hl : l = lane
  · subst hl
    simp [scalarRound,get_lane,Fin.val_inj,hne]
  · by_cases hn : l = lane ^^^ 1
    · subst hn
      simp [scalarRound,get_lane,Fin.val_inj,hne,hne.symm]
    · simp [scalarRound,get_lane,Vector.getElem_set,Fin.val_inj,hl,hn,Ne.symm hl,
        Ne.symm hn]

theorem accumulate512_lane (acc : Accs) (input secret : Bytes) (l : Fin 8) :
    (accumulate512 acc input secret)[l] =
      mult32to64 (readLE64 (input.drop (l*8)) ^^^ readLE64 (secret.drop (l*8)))
          ((readLE64 (input.drop (l*8)) ^^^ readLE64 (secret.drop (l*8))) >>> 32)+
        (acc[l]+readLE64 (input.drop ((l ^^^ 1 : Fin 8)*8))) := by
  have hlanes : List.finRange 8 = [0,1,2,3,4,5,6,7] := by decide
  rw [accumulate512,hlanes]
  simp only [List.foldl_cons,List.foldl_nil,scalarRound_lane]
  fin_cases l <;> simp [UInt64.add_assoc]

theorem scrambleAcc_lane (acc : Accs) (secret : Bytes) (l : Fin 8) :
    (scrambleAcc acc secret)[l] =
      (xorshift64 acc[l] 47 ^^^ readLE64 (secret.drop (l*8)))*prime32_1 := by
  have hlanes : List.finRange 8 = [0,1,2,3,4,5,6,7] := by decide
  rw [scrambleAcc,hlanes]
  simp only [List.foldl_cons,List.foldl_nil]
  fin_cases l <;> simp [scalarScrambleRound,get_lane]

theorem forRegisters_lane {q : Nat} (hq : 0 < q) (hall : stripeLen / (8*q)*q = 8) (acc : Accs)
    (f : Nat → Epi64 → Epi64) (l : Fin 8) :
    (forRegisters q acc f)[l] = f (l / q) (register q acc (l / q)) (l % q) := by
  have hloop : ∀ n ≤ stripeLen / (8*q), ∀ l : Fin 8,
      ((List.range n).foldl (fun acc i =>
        let xacc := f i (register q acc i)
        (Vector.ofFn fun lane => if lane / q = i then xacc (lane % q) else acc.get lane : Accs))
          acc)[l] = if l / q < n then f (l / q) (register q acc (l / q)) (l % q) else acc[l] := by
    intro n hn
    induction n with
    | zero => simp
    | succ n ih =>
      intro l
      have ih := ih (by omega)
      rw [List.range_succ,List.foldl_append]
      simp only [List.foldl_cons,List.foldl_nil]
      generalize List.foldl _ acc (List.range n) = before at ih ⊢
      simp only [Fin.getElem_fin,Vector.getElem_ofFn,get_lane] at ih ⊢
      by_cases hl : l.val / q = n
      · -- the rounds before have left this register alone
        have hsame : register q before n = register q acc n := by
          funext j
          by_cases hj : n*q+j < 8
          · have hkept := ih ⟨n*q+j,hj⟩
            have hle : n ≤ (n*q+j) / q :=
              (Nat.le_div_iff_mul_le hq).mpr (Nat.le_add_right _ _)
            rw [if_neg (Nat.not_lt.mpr hle)] at hkept
            simp only [register,Vector.getElem?_eq_getElem hj,hkept]
          · simp only [register,Vector.getElem?_eq_none (Nat.le_of_not_lt hj)]
        rw [if_pos hl,if_pos (by omega),hsame,hl]
      · rw [if_neg hl,ih l]
        by_cases hlt : l.val / q < n
        · rw [if_pos hlt,if_pos (by omega)]
        · rw [if_neg hlt,if_neg (by omega)]
  have hlane : l.val / q < stripeLen / (8*q) := (Nat.div_lt_iff_lt_mul hq).mpr (by omega)
  rw [forRegisters,hloop _ (Nat.le_refl _) l,if_pos hlane]

section
variable {q : Nat} {l : Fin 8}

theorem register_lane (acc : Accs) : register q acc (l / q) (l % q) = acc[l] := by
  have hsplit : l.val / q*q+l.val % q = l := Nat.div_add_mod' _ _
  simp [register,hsplit]

theorem loadu_lane (p : Bytes) :
    loadu (p.drop (l / q*(8*q))) (l % q) = readLE64 (p.drop (l*8)) := by
  have hsplit : l.val / q*(8*q)+l.val % q*8 = l*8 := by
    rw [Nat.mul_comm 8,← Nat.mul_assoc,← Nat.add_mul,Nat.div_add_mod']
  rw [loadu,List.drop_drop,hsplit]

end

/-! Halves of 64 bits. -/

theorem and_low (x : UInt64) : (x &&& 0xffffffff).toNat = x.toNat % 2 ^ 32 := by
  rw [UInt64.toNat_and]
  exact Nat.and_two_pow_sub_one_eq_mod x.toNat 32

theorem shiftRight_high (x : UInt64) : (x >>> 32).toNat = x.toNat / 2 ^ 32 := by
  rw [UInt64.toNat_shiftRight]
  exact Nat.shiftRight_eq_div_pow x.toNat 32

theorem shiftLeft_high (x : UInt64) : (x <<< 32).toNat = x.toNat % 2 ^ 32*2 ^ 32 := by
  rw [UInt64.toNat_shiftLeft]
  have hshift : x.toNat <<< 32 = x.toNat*2 ^ 32 := Nat.shiftLeft_eq x.toNat 32
  exact (congrArg (· % 2 ^ 64) hshift).trans (Nat.mul_mod_mul_right (2 ^ 32) x.toNat (2 ^ 32))

theorem high_lt (x : UInt64) : x.toNat / 2 ^ 32 < 2 ^ 32 :=
  (Nat.div_lt_iff_lt_mul (by decide)).mpr x.toNat_lt

theorem low_lt (x : UInt64) : x.toNat % 2 ^ 32 < 2 ^ 32 := Nat.mod_lt _ (by decide)

theorem or_halves {lo : UInt64} (h : lo.toNat < 2 ^ 32) (hi : UInt64) :
    (lo ||| (hi <<< 32)).toNat = lo.toNat+hi.toNat % 2 ^ 32*2 ^ 32 := by
  rw [UInt64.toNat_or,shiftLeft_high,← Nat.shiftLeft_eq,Nat.or_comm,
    ← Nat.shiftLeft_add_eq_or_of_lt h,Nat.add_comm]

theorem toNat_mult32to64 (x y : UInt64) :
    (mult32to64 x y).toNat = (x.toNat % 2 ^ 32)*(y.toNat % 2 ^ 32) := by
  have hlt : (x.toNat % 2 ^ 32)*(y.toNat % 2 ^ 32) < 2 ^ 32*2 ^ 32 :=
    Nat.mul_lt_mul'' (low_lt x) (low_lt y)
  rw [mult32to64,UInt64.toNat_mul,UInt32.toNat_toUInt64,UInt32.toNat_toUInt64,
    UInt64.toNat_toUInt32,UInt64.toNat_toUInt32,Nat.mod_eq_of_lt (by simpa using hlt)]

theorem mult32to64_congr {y z : UInt64} (x : UInt64)
    (h : y.toNat % 2 ^ 32 = z.toNat % 2 ^ 32) : mult32to64 x y = mult32to64 x z := by
  rw [← UInt64.toNat_inj,toNat_mult32to64,toNat_mult32to64,h]

section
variable (a : Epi64) (i : Nat)

theorem dword_low : (a.dword (i*2)).toNat = (a i).toNat % 2 ^ 32 := by
  rw [dword,if_pos (by omega),Nat.mul_div_cancel _ (by decide),and_low]

theorem dword_high : (a.dword (i*2+1)).toNat = (a i).toNat / 2 ^ 32 := by
  rw [dword,if_neg (by omega),show (i*2+1) / 2 = i by omega,shiftRight_high]

theorem dword_halves : a.dword (i*2) ||| (a.dword (i*2+1) <<< 32) = a i := by
  rw [← UInt64.toNat_inj,or_halves (by rw [dword_low]; exact low_lt _),dword_low,dword_high,
    Nat.mod_eq_of_lt (high_lt _),Nat.add_comm,Nat.div_add_mod']

theorem shuffle_swap :
    a.shuffleEpi32 0x4e i = a (if i % 2 = 0 then i+1 else i-1) := by
  rcases Nat.mod_two_eq_zero_or_one i with h | h
  · have hplace : i / 2*4+2 = (i+1)*2 := by omega
    have hnext : i / 2*4+3 = (i+1)*2+1 := by omega
    simp [shuffleEpi32,h,hplace,hnext,dword_halves]
  · have hplace : i / 2*4 = (i-1)*2 := by omega
    simp [shuffleEpi32,h,hplace,dword_halves]

theorem shuffle_down : (a.shuffleEpi32 0x31 i).toNat % 2 ^ 32 = (a i).toNat / 2 ^ 32 := by
  have hdown : ∀ hi : UInt64,
      (a.dword (i*2+1) ||| (hi <<< 32)).toNat % 2 ^ 32 = (a i).toNat / 2 ^ 32 := by
    intro hi
    rw [or_halves (by rw [dword_high]; exact high_lt _),dword_high,Nat.add_mul_mod_self_right,
      Nat.mod_eq_of_lt (high_lt _)]
  rcases Nat.mod_two_eq_zero_or_one i with h | h
  · have hplace : i / 2*4+1 = i*2+1 := by omega
    simpa [shuffleEpi32,h,hplace] using hdown _
  · have hplace : i / 2*4+3 = i*2+1 := by omega
    simpa [shuffleEpi32,h,hplace] using hdown _

theorem srli_down : (a.srli 32 i).toNat % 2 ^ 32 = (a i).toNat / 2 ^ 32 := by
  rw [srli,shiftRight_high,Nat.mod_eq_of_lt (high_lt _)]

end

theorem mul_halves {x down p : UInt64} (h : down.toNat % 2 ^ 32 = x.toNat / 2 ^ 32)
    (hp : p.toNat < 2 ^ 32) : mult32to64 x p+(mult32to64 down p <<< 32) = x*p := by
  rw [← UInt64.toNat_inj,UInt64.toNat_add,UInt64.toNat_mul,shiftLeft_high,toNat_mult32to64,
    toNat_mult32to64,h,Nat.mod_eq_of_lt hp]
  have hsplit := Nat.div_add_mod' x.toNat (2 ^ 32)
  generalize x.toNat / 2 ^ 32 = hi at *
  generalize x.toNat % 2 ^ 32 = lo at *
  have hproduct : x.toNat*p.toNat = lo*p.toNat+hi*p.toNat*2 ^ 32 := by
    rw [← hsplit,Nat.add_mul,Nat.mul_right_comm,Nat.add_comm]
  rw [hproduct]
  omega

theorem swap_lane {q : Nat} (hq : q = 2 ∨ q = 4 ∨ q = 8) (l : Fin 8) :
    (l ^^^ 1 : Fin 8).val / q = l / q ∧
      (l ^^^ 1 : Fin 8).val % q = if l.val % q % 2 = 0 then l % q+1 else l % q-1 := by
  rcases hq with rfl | rfl | rfl <;> revert l <;> decide

section
variable {q : Nat} {acc : Accs} {input secret : Bytes}

/-- One lane of a vectorized stripe, if `down` brings the high halves down. -/
theorem accumulate_lane (hq : q = 2 ∨ q = 4 ∨ q = 8) {down : Epi64 → Epi64}
    (hdown : ∀ a i, (down a i).toNat % 2 ^ 32 = (a i).toNat / 2 ^ 32) (l : Fin 8) :
    (forRegisters q acc fun i xacc =>
      let dataVec := loadu (input.drop (i*(8*q)))
      let dataKey := dataVec.xor (loadu (secret.drop (i*(8*q))))
      (dataKey.mulEpu32 (down dataKey)).add (xacc.add (dataVec.shuffleEpi32 0x4e)))[l] =
        (accumulate512 acc input secret)[l] := by
  have hpos : 0 < q := by omega
  have hall : stripeLen / (8*q)*q = 8 := by rcases hq with rfl | rfl | rfl <;> rfl
  obtain ⟨hsame,hswap⟩ := swap_lane hq l
  have hdata := loadu_lane (q := q) (l := l) input
  have hkey := loadu_lane (q := q) (l := l) secret
  have hother := loadu_lane (q := q) (l := l ^^^ 1) input
  rw [hsame,hswap] at hother
  rw [forRegisters_lane hpos hall,accumulate512_lane]
  simp only [Epi64.add,mulEpu32,register_lane]
  rw [shuffle_swap,hother,mult32to64_congr _ ((hdown _ _).trans (srli_down _ _).symm)]
  simp only [Epi64.xor,Epi64.srli,hdata,hkey]

theorem scramble_lane (hq : q = 2 ∨ q = 4 ∨ q = 8) {down : Epi64 → Epi64}
    (hdown : ∀ a i, (down a i).toNat % 2 ^ 32 = (a i).toNat / 2 ^ 32)
    {keyed : Epi64 → Epi64 → Epi64}
    (hkeyed : ∀ a key i, keyed a key i = a i ^^^ (a i >>> 47) ^^^ key i) (l : Fin 8) :
    (forRegisters q acc fun i accVec =>
      let prime32 := set1Epi32 prime32_1.toUInt32
      let dataKey := keyed accVec (loadu (secret.drop (i*(8*q))))
      (dataKey.mulEpu32 prime32).add (((down dataKey).mulEpu32 prime32).slli 32))[l] =
        (scrambleAcc acc secret)[l] := by
  have hpos : 0 < q := by omega
  have hall : stripeLen / (8*q)*q = 8 := by rcases hq with rfl | rfl | rfl <;> rfl
  have hprime : ∀ x, mult32to64 x (set1Epi32 prime32_1.toUInt32 0) = mult32to64 x prime32_1 :=
    fun x => mult32to64_congr x (by decide)
  rw [forRegisters_lane hpos hall,scrambleAcc_lane]
  simp only [Epi64.add,mulEpu32,slli]
  rw [show ∀ i, set1Epi32 prime32_1.toUInt32 i = set1Epi32 prime32_1.toUInt32 0 from fun _ => rfl,
    hprime,hprime,mul_halves (hdown _ _) (by decide),hkeyed,loadu_lane,register_lane,xorshift64]

end

theorem long_multiplication (b loLo hiLo loHi hiHi : Nat) :
    (hiLo / b+(loLo / b+hiLo % b+loHi) / b+hiHi)*(b*b)+
        ((loLo / b+hiLo % b+loHi) % b*b+loLo % b) =
      hiHi*(b*b)+(hiLo+loHi)*b+loLo := by
  have hcross := Nat.div_add_mod' (loLo / b+hiLo % b+loHi) b
  have hlow := Nat.div_add_mod' loLo b
  have hhigh := Nat.div_add_mod' hiLo b
  generalize (loLo / b+hiLo % b+loHi) / b = crossHigh at *
  generalize (loLo / b+hiLo % b+loHi) % b = crossLow at *
  calc (hiLo / b+crossHigh+hiHi)*(b*b)+(crossLow*b+loLo % b)
      = hiHi*(b*b)+(hiLo / b*b*b+(crossHigh*b+crossLow)*b)+loLo % b := by ring
    _ = hiHi*(b*b)+(hiLo / b*b*b+(loLo / b+hiLo % b+loHi)*b)+loLo % b := by rw [hcross]
    _ = hiHi*(b*b)+((hiLo / b*b+hiLo % b)+loHi)*b+(loLo / b*b+loLo % b) := by ring
    _ = hiHi*(b*b)+(hiLo+loHi)*b+loLo := by rw [hhigh,hlow]

/-- No step of the portable multiplication overflows. -/
theorem mult64to128Portable_eq (lhs rhs : UInt64) :
    mult64to128Portable lhs rhs = mult64to128 lhs rhs := by
  have hl := Nat.div_add_mod' lhs.toNat (2 ^ 32)
  have hr := Nat.div_add_mod' rhs.toNat (2 ^ 32)
  have hproduct : ∀ {x y : Nat}, x < 2 ^ 32 → y < 2 ^ 32 → x*y ≤ (2 ^ 32-1)*(2 ^ 32-1) :=
    fun hx hy => Nat.mul_le_mul (by omega) (by omega)
  have hloLo := hproduct (low_lt lhs) (low_lt rhs)
  have hloHi := hproduct (low_lt lhs) (high_lt rhs)
  have hloLo' : (mult32to64 (lhs &&& 0xFFFFFFFF) (rhs &&& 0xFFFFFFFF)).toNat =
      lhs.toNat % 2 ^ 32*(rhs.toNat % 2 ^ 32) := by
    rw [toNat_mult32to64,and_low,and_low,Nat.mod_mod,Nat.mod_mod]
  have hhiLo' : (mult32to64 (lhs >>> 32) (rhs &&& 0xFFFFFFFF)).toNat =
      lhs.toNat / 2 ^ 32*(rhs.toNat % 2 ^ 32) := by
    rw [toNat_mult32to64,shiftRight_high,and_low,Nat.mod_mod,Nat.mod_eq_of_lt (high_lt lhs)]
  have hloHi' : (mult32to64 (lhs &&& 0xFFFFFFFF) (rhs >>> 32)).toNat =
      lhs.toNat % 2 ^ 32*(rhs.toNat / 2 ^ 32) := by
    rw [toNat_mult32to64,shiftRight_high,and_low,Nat.mod_mod,Nat.mod_eq_of_lt (high_lt rhs)]
  have hhiHi' : (mult32to64 (lhs >>> 32) (rhs >>> 32)).toNat =
      lhs.toNat / 2 ^ 32*(rhs.toNat / 2 ^ 32) := by
    rw [toNat_mult32to64,shiftRight_high,shiftRight_high,Nat.mod_eq_of_lt (high_lt lhs),
      Nat.mod_eq_of_lt (high_lt rhs)]
  have hsum := long_multiplication (2 ^ 32) (lhs.toNat % 2 ^ 32*(rhs.toNat % 2 ^ 32))
    (lhs.toNat / 2 ^ 32*(rhs.toNat % 2 ^ 32)) (lhs.toNat % 2 ^ 32*(rhs.toNat / 2 ^ 32))
    (lhs.toNat / 2 ^ 32*(rhs.toNat / 2 ^ 32))
  have hwhole : lhs.toNat*rhs.toNat = lhs.toNat / 2 ^ 32*(rhs.toNat / 2 ^ 32)*(2 ^ 32*2 ^ 32)+
      (lhs.toNat / 2 ^ 32*(rhs.toNat % 2 ^ 32)+lhs.toNat % 2 ^ 32*(rhs.toNat / 2 ^ 32))*2 ^ 32+
        lhs.toNat % 2 ^ 32*(rhs.toNat % 2 ^ 32) := by
    nth_rewrite 1 [← hl]
    nth_rewrite 1 [← hr]
    ring
  have hfits : lhs.toNat*rhs.toNat < 2 ^ 64*2 ^ 64 := Nat.mul_lt_mul'' lhs.toNat_lt rhs.toNat_lt
  rw [← hwhole] at hsum
  rw [mult64to128Portable,mult64to128]
  rw [← hloLo'] at hloLo
  rw [← hloHi'] at hloHi
  rw [← hloLo',← hhiLo',← hloHi',← hhiHi'] at hsum
  generalize mult32to64 (lhs &&& 0xFFFFFFFF) (rhs &&& 0xFFFFFFFF) = loLo at *
  generalize mult32to64 (lhs >>> 32) (rhs &&& 0xFFFFFFFF) = hiLo at *
  generalize mult32to64 (lhs &&& 0xFFFFFFFF) (rhs >>> 32) = loHi at *
  generalize mult32to64 (lhs >>> 32) (rhs >>> 32) = hiHi at *
  have hcross : ((loLo >>> 32)+(hiLo &&& 0xFFFFFFFF)+loHi).toNat =
      loLo.toNat / 2 ^ 32+hiLo.toNat % 2 ^ 32+loHi.toNat := by
    rw [UInt64.toNat_add,UInt64.toNat_add,shiftRight_high,and_low]
    omega
  rw [← hcross] at hsum
  generalize (loLo >>> 32)+(hiLo &&& 0xFFFFFFFF)+loHi = cross at *
  generalize lhs.toNat*rhs.toNat = product at *
  have hlow := low_lt loLo
  have hlower : (cross <<< 32 ||| (loLo &&& 0xFFFFFFFF)).toNat =
      cross.toNat % 2 ^ 32*2 ^ 32+loLo.toNat % 2 ^ 32 := by
    rw [UInt64.or_comm,or_halves (by rw [and_low]; exact hlow),and_low,Nat.add_comm]
  have hupper : ((hiLo >>> 32)+(cross >>> 32)+hiHi).toNat =
      hiLo.toNat / 2 ^ 32+cross.toNat / 2 ^ 32+hiHi.toNat := by
    rw [UInt64.toNat_add,UInt64.toNat_add,shiftRight_high,shiftRight_high]
    omega
  have hcrossLow := low_lt cross
  rw [Prod.mk.injEq,← UInt64.toNat_inj,← UInt64.toNat_inj,hlower,hupper,UInt64.toNat_ofNat',
    UInt64.toNat_ofNat']
  omega

/-- With any of the three instruction sets a stripe is accumulated and the accumulators are
scrambled as the scalar code does it, and the multiplication by halves is that of 128 bits. -/
theorem vectors_agree (acc : Accs) (input secret : Bytes) (lhs rhs : UInt64) :
    accumulate512Sse2 acc input secret = accumulate512 acc input secret ∧
    accumulate512Avx2 acc input secret = accumulate512 acc input secret ∧
    accumulate512Avx512 acc input secret = accumulate512 acc input secret ∧
    scrambleAccSse2 acc secret = scrambleAcc acc secret ∧
    scrambleAccAvx2 acc secret = scrambleAcc acc secret ∧
    scrambleAccAvx512 acc secret = scrambleAcc acc secret ∧
    mult64to128Portable lhs rhs = mult64to128 lhs rhs := by
  have hlanes : ∀ {a b : Accs}, (∀ l : Fin 8, a[l] = b[l]) → a = b := fun h =>
    Vector.ext fun i hi => h ⟨i,hi⟩
  have hkeyed : ∀ (a key : Epi64) (i : Nat), (a.xor (a.srli 47)).xor key i =
      a i ^^^ (a i >>> 47) ^^^ key i := fun _ _ _ => rfl
  have hkeyed3 : ∀ (a key : Epi64) (i : Nat), key.xor3 a (a.srli 47) i =
      a i ^^^ (a i >>> 47) ^^^ key i := fun a key i => by
    rw [xor3,UInt64.xor_assoc,UInt64.xor_comm]
    rfl
  refine ⟨hlanes fun l => ?_,hlanes fun l => ?_,hlanes fun l => ?_,hlanes fun l => ?_,
    hlanes fun l => ?_,hlanes fun l => ?_,?_⟩
  · exact accumulate_lane (q := 2) (.inl rfl) shuffle_down l
  · rw [accumulate512Avx2,accumulate512Wide]
    exact accumulate_lane (q := 4) (.inr (.inl rfl)) srli_down l
  · rw [accumulate512Avx512,accumulate512Wide]
    exact accumulate_lane (q := 8) (.inr (.inr rfl)) srli_down l
  · exact scramble_lane (q := 2) (.inl rfl) shuffle_down hkeyed l
  · exact scramble_lane (q := 4) (.inr (.inl rfl)) srli_down hkeyed l
  · exact scramble_lane (q := 8) (.inr (.inr rfl)) srli_down hkeyed3 l
  · exact mult64to128Portable_eq lhs rhs

end Xxh3
end QData
