import QData.Constants
import QData.Lib.Stripes
/-! XXH3 with 64 bits of output, from the vendored header: the hash of one input, and the
state that takes its input in pieces. A pointer into an input is what lies behind it. -/
set_option autoImplicit false

namespace QData
namespace Xxh3
open Words Stripes

def prime32_1 : UInt64 := 0x9E3779B1
def prime32_2 : UInt64 := 0x85EBCA77
def prime32_3 : UInt64 := 0xC2B2AE3D

def prime64_1 : UInt64 := 0x9E3779B185EBCA87
def prime64_2 : UInt64 := 0xC2B2AE3D27D4EB4F
def prime64_3 : UInt64 := 0x165667B19E3779F9
def prime64_4 : UInt64 := 0x85EBCA77C2B2AE63
def prime64_5 : UInt64 := 0x27D4EB2F165667C5

def primeMx1 : UInt64 := 0x165667919E3779F9
def primeMx2 : UInt64 := 0x9FB21C651E98DF25

def kSecret : Bytes :=
  [0xb8,0xfe,0x6c,0x39,0x23,0xa4,0x4b,0xbe,0x7c,0x01,0x81,0x2c,0xf7,0x21,0xad,0x1c,
    0xde,0xd4,0x6d,0xe9,0x83,0x90,0x97,0xdb,0x72,0x40,0xa4,0xa4,0xb7,0xb3,0x67,0x1f,
    0xcb,0x79,0xe6,0x4e,0xcc,0xc0,0xe5,0x78,0x82,0x5a,0xd0,0x7d,0xcc,0xff,0x72,0x21,
    0xb8,0x08,0x46,0x74,0xf7,0x43,0x24,0x8e,0xe0,0x35,0x90,0xe6,0x81,0x3a,0x26,0x4c,
    0x3c,0x28,0x52,0xbb,0x91,0xc3,0x00,0xcb,0x88,0xd0,0x65,0x8b,0x1b,0x53,0x2e,0xa3,
    0x71,0x64,0x48,0x97,0xa2,0x0d,0xf9,0x4e,0x38,0x19,0xef,0x46,0xa9,0xde,0xac,0xd8,
    0xa8,0xfa,0x76,0x3f,0xe3,0x9c,0x34,0x3f,0xf9,0xdc,0xbb,0xc7,0xc7,0x0b,0x4f,0x1d,
    0x8a,0x51,0xe0,0x4b,0xcd,0xb4,0x59,0x31,0xc8,0x9f,0x7e,0xc9,0xd9,0x78,0x73,0x64,
    0xea,0xc5,0xac,0x83,0x34,0xd3,0xeb,0xc3,0xc5,0x81,0xa0,0xff,0xfa,0x13,0x63,0xeb,
    0x17,0x0d,0xdd,0x51,0xb7,0xf0,0xda,0x49,0xd3,0x16,0x55,0x26,0x29,0xd4,0x68,0x9e,
    0x2b,0x16,0xbe,0x58,0x7d,0x47,0xa1,0xfc,0x8f,0xf8,0xb8,0xd1,0x7a,0xd0,0x31,0xce,
    0x45,0xcb,0x3a,0x8f,0x95,0x16,0x04,0x28,0xaf,0xd7,0xfb,0xca,0xbb,0x4b,0x40,0x7e]

def stripeLen : Nat := 64
def secretConsumeRate : Nat := 8
def secretSizeMin : Nat := 136
def secretLastaccStart : Nat := 7
def secretMergeaccsStart : Nat := 11
def midsizeMax : Nat := 240
def midsizeStartoffset : Nat := 3
def midsizeLastoffset : Nat := 17
def internalBufferSize : Nat := 256
def internalBufferStripes : Nat := internalBufferSize / stripeLen

def readLE32 (p : Bytes) : UInt32 := UInt32.ofNat (toNat (p.take 4))
def readLE64 (p : Bytes) : UInt64 := UInt64.ofNat (toNat (p.take 8))

def swap32 (x : UInt32) : UInt32 :=
  (x <<< 24 &&& (0xff000000 : UInt32)) ||| (x <<< 8 &&& (0x00ff0000 : UInt32)) |||
    (x >>> 8 &&& (0x0000ff00 : UInt32)) ||| (x >>> 24 &&& (0x000000ff : UInt32))

def swap64 (x : UInt64) : UInt64 :=
  (x <<< 56 &&& (0xff00000000000000 : UInt64)) ||| (x <<< 40 &&& (0x00ff000000000000 : UInt64)) |||
    (x <<< 24 &&& (0x0000ff0000000000 : UInt64)) ||| (x <<< 8 &&& (0x000000ff00000000 : UInt64)) |||
    (x >>> 8 &&& (0x00000000ff000000 : UInt64)) ||| (x >>> 24 &&& (0x0000000000ff0000 : UInt64)) |||
    (x >>> 40 &&& (0x000000000000ff00 : UInt64)) ||| (x >>> 56 &&& (0x00000000000000ff : UInt64))

def rotl64 (x r : UInt64) : UInt64 := (x <<< r) ||| (x >>> (64-r))

def mult32to64 (x y : UInt64) : UInt64 := x.toUInt32.toUInt64*y.toUInt32.toUInt64

/-- `XXH_mult64to128` by `__uint128_t`: the low and the high half of the product. -/
def mult64to128 (lhs rhs : UInt64) : UInt64 × UInt64 :=
  (UInt64.ofNat (lhs.toNat*rhs.toNat),UInt64.ofNat (lhs.toNat*rhs.toNat / 2 ^ 64))

def mul128Fold64 (lhs rhs : UInt64) : UInt64 :=
  let product := mult64to128 lhs rhs
  product.1 ^^^ product.2

def xorshift64 (v64 shift : UInt64) : UInt64 := v64 ^^^ (v64 >>> shift)

def avalanche (h64 : UInt64) : UInt64 := xorshift64 (xorshift64 h64 37*primeMx1) 32

def avalanche64 (hash : UInt64) : UInt64 :=
  xorshift64 (xorshift64 (xorshift64 hash 33*prime64_2) 29*prime64_3) 32

def rrmxmx (h64 len : UInt64) : UInt64 :=
  let h64 := h64 ^^^ (rotl64 h64 49 ^^^ rotl64 h64 24)
  let h64 := h64*primeMx2
  let h64 := h64 ^^^ ((h64 >>> 35)+len)
  xorshift64 (h64*primeMx2) 28

/-! Short inputs. Behind the first `len` bytes of `input` there may be more. -/

def len1to3 (input : Bytes) (len : Nat) (secret : Bytes) (seed : UInt64) : UInt64 :=
  let c1 := input.getD 0 0
  let c2 := input.getD (len / 2) 0
  let c3 := input.getD (len-1) 0
  let combined : UInt32 := (c1.toUInt32 <<< 16) ||| (c2.toUInt32 <<< 24) ||| c3.toUInt32 |||
    (UInt32.ofNat len <<< 8)
  let bitflip := (readLE32 secret ^^^ readLE32 (secret.drop 4)).toUInt64+seed
  avalanche64 (combined.toUInt64 ^^^ bitflip)

def len4to8 (input : Bytes) (len : Nat) (secret : Bytes) (seed : UInt64) : UInt64 :=
  let seed := seed ^^^ ((swap32 seed.toUInt32).toUInt64 <<< 32)
  let input1 := readLE32 input
  let input2 := readLE32 (input.drop (len-4))
  let bitflip := (readLE64 (secret.drop 8) ^^^ readLE64 (secret.drop 16))-seed
  let input64 := input2.toUInt64+(input1.toUInt64 <<< 32)
  rrmxmx (input64 ^^^ bitflip) (UInt64.ofNat len)

def len9to16 (input : Bytes) (len : Nat) (secret : Bytes) (seed : UInt64) : UInt64 :=
  let bitflip1 := (readLE64 (secret.drop 24) ^^^ readLE64 (secret.drop 32))+seed
  let bitflip2 := (readLE64 (secret.drop 40) ^^^ readLE64 (secret.drop 48))-seed
  let inputLo := readLE64 input ^^^ bitflip1
  let inputHi := readLE64 (input.drop (len-8)) ^^^ bitflip2
  avalanche (UInt64.ofNat len+swap64 inputLo+inputHi+mul128Fold64 inputLo inputHi)

def len0to16 (input : Bytes) (len : Nat) (secret : Bytes) (seed : UInt64) : UInt64 :=
  if len > 8 then len9to16 input len secret seed
  else if len ≥ 4 then len4to8 input len secret seed
  else if len ≠ 0 then len1to3 input len secret seed
  else avalanche64 (seed ^^^ (readLE64 (secret.drop 56) ^^^ readLE64 (secret.drop 64)))

def mix16B (input secret : Bytes) (seed : UInt64) : UInt64 :=
  mul128Fold64 (readLE64 input ^^^ (readLE64 secret+seed))
    (readLE64 (input.drop 8) ^^^ (readLE64 (secret.drop 8)-seed))

def mixAt (input secret : Bytes) (seed : UInt64) (i j : Nat) (acc : UInt64) : UInt64 :=
  acc+mix16B (input.drop i) (secret.drop j) seed

def len17to128 (input : Bytes) (len : Nat) (secret : Bytes) (seed : UInt64) : UInt64 :=
  let mix := mixAt input secret seed
  let acc := UInt64.ofNat len*prime64_1
  let acc := if len > 96 then mix (len-64) 112 (mix 48 96 acc) else acc
  let acc := if len > 64 then mix (len-48) 80 (mix 32 64 acc) else acc
  let acc := if len > 32 then mix (len-32) 48 (mix 16 32 acc) else acc
  avalanche (mix (len-16) 16 (mix 0 0 acc))

def len129to240 (input : Bytes) (len : Nat) (secret : Bytes) (seed : UInt64) : UInt64 :=
  let mix := mixAt input secret seed
  let nbRounds := len / 16
  let acc := (List.range 8).foldl (fun acc i => mix (16*i) (16*i) acc)
    (UInt64.ofNat len*prime64_1)
  let accEnd := mix16B (input.drop (len-16)) (secret.drop (secretSizeMin-midsizeLastoffset)) seed
  let accEnd := (List.range' 8 (nbRounds-8)).foldl
    (fun accEnd i => mix (16*i) (16*(i-8)+midsizeStartoffset) accEnd) accEnd
  avalanche (avalanche acc+accEnd)

/-! Long inputs: stripes of 64 bytes go into eight accumulators. -/

abbrev Accs := Vector UInt64 8

def initAcc : Accs :=
  #v[prime32_3,prime64_1,prime64_2,prime64_3,prime64_4,prime32_2,prime64_5,prime32_1]

structure Secret where
  bytes : Bytes
  size : secretSizeMin ≤ bytes.length

def Secret.limit (secret : Secret) : Nat := secret.bytes.length-stripeLen

def Secret.nbStripesPerBlock (secret : Secret) : Nat := secret.limit / secretConsumeRate

def Secret.last (secret : Secret) : Bytes := secret.bytes.drop secret.limit

def defaultSecret : Secret := ⟨kSecret,by decide +kernel⟩

theorem Secret.nbStripesPerBlock_pos (secret : Secret) : 0 < secret.nbStripesPerBlock := by
  have h := secret.size
  simp only [nbStripesPerBlock,limit,secretSizeMin,stripeLen,secretConsumeRate] at h ⊢
  omega

def scalarRound (acc : Accs) (input secret : Bytes) (lane : Fin 8) : Accs :=
  let dataVal := readLE64 (input.drop (lane*8))
  let dataKey := dataVal ^^^ readLE64 (secret.drop (lane*8))
  let other := lane ^^^ 1
  let acc := acc.set other (acc.get other+dataVal) other.isLt
  acc.set lane (mult32to64 dataKey (dataKey >>> 32)+acc.get lane) lane.isLt

def accumulate512 (acc : Accs) (input secret : Bytes) : Accs :=
  (List.finRange 8).foldl (fun acc lane => scalarRound acc input secret lane) acc

def accumulate (acc : Accs) (input secret : Bytes) (nbStripes : Nat) : Accs :=
  (List.range nbStripes).foldl (fun acc n => accumulate512 acc (input.drop (n*stripeLen))
    (secret.drop (n*secretConsumeRate))) acc

def scalarScrambleRound (acc : Accs) (secret : Bytes) (lane : Fin 8) : Accs :=
  let key64 := readLE64 (secret.drop (lane*8))
  acc.set lane ((xorshift64 (acc.get lane) 47 ^^^ key64)*prime32_1) lane.isLt

def scrambleAcc (acc : Accs) (secret : Bytes) : Accs :=
  (List.finRange 8).foldl (fun acc lane => scalarScrambleRound acc secret lane) acc

def mix2Accs (acc : Accs) (i : Fin 4) (secret : Bytes) : UInt64 :=
  mul128Fold64 (acc[2*i.val] ^^^ readLE64 secret) (acc[2*i.val+1] ^^^ readLE64 (secret.drop 8))

def mergeAccs (acc : Accs) (secret : Bytes) (start : UInt64) : UInt64 :=
  avalanche ((List.finRange 4).foldl
    (fun result64 i => result64+mix2Accs acc i (secret.drop (16*i))) start)

def finalizeLong (acc : Accs) (secret : Secret) (len : UInt64) : UInt64 :=
  mergeAccs acc (secret.bytes.drop secretMergeaccsStart) (len*prime64_1)

/-- The last stripe ends where the input ends and may overlap the one before. -/
def accumulateLast (acc : Accs) (stripe : Bytes) (secret : Secret) : Accs :=
  accumulate512 acc stripe (secret.bytes.drop (secret.limit-secretLastaccStart))

def hashLongLoop (acc : Accs) (input : Bytes) (len : Nat) (secret : Secret) : Accs :=
  let blockLen := stripeLen*secret.nbStripesPerBlock
  let nbBlocks := (len-1) / blockLen
  let acc := (List.range nbBlocks).foldl (fun acc n => scrambleAcc
    (accumulate acc (input.drop (n*blockLen)) secret.bytes secret.nbStripesPerBlock)
      secret.last) acc
  let nbStripes := (len-1-blockLen*nbBlocks) / stripeLen
  let acc := accumulate acc (input.drop (nbBlocks*blockLen)) secret.bytes nbStripes
  accumulateLast acc (input.drop (len-stripeLen)) secret

def hashLong (input : Bytes) (len : Nat) (secret : Secret) : UInt64 :=
  finalizeLong (hashLongLoop initAcc input len secret) secret (UInt64.ofNat len)

def bitsWithSecret (input : Bytes) (len : Nat) (secret : Secret) : UInt64 :=
  if len ≤ 16 then len0to16 input len secret.bytes 0
  else if len ≤ 128 then len17to128 input len secret.bytes 0
  else if len ≤ midsizeMax then len129to240 input len secret.bytes 0
  else hashLong input len secret

def bits (input : Bytes) : UInt64 := bitsWithSecret input input.length defaultSecret

/-! The streaming state. -/

def consumeBlocks (secret : Secret) (acc : Accs) (input : Bytes) (nbStripes : Nat) :
    Accs × Bytes × Nat :=
  if _h : nbStripes ≥ secret.nbStripesPerBlock then
    consumeBlocks secret
      (scrambleAcc (accumulate acc input secret.bytes secret.nbStripesPerBlock) secret.last)
      (input.drop (secret.nbStripesPerBlock*stripeLen)) (nbStripes-secret.nbStripesPerBlock)
  else (acc,input,nbStripes)
termination_by nbStripes
decreasing_by
  have hpos := secret.nbStripesPerBlock_pos
  omega

/-- The accumulators, the stripes so far of an unfinished block, and the rest of the input. -/
def consumeStripes (secret : Secret) (acc : Accs) (nbStripesSoFar : Nat) (input : Bytes)
    (nbStripes : Nat) : Accs × Nat × Bytes :=
  let initialSecret := secret.bytes.drop (nbStripesSoFar*secretConsumeRate)
  if nbStripes ≥ secret.nbStripesPerBlock-nbStripesSoFar then
    let nbStripesThisIter := secret.nbStripesPerBlock-nbStripesSoFar
    let acc := scrambleAcc (accumulate acc input initialSecret nbStripesThisIter) secret.last
    let (acc,input,nbStripes) := consumeBlocks secret acc
      (input.drop (nbStripesThisIter*stripeLen)) (nbStripes-nbStripesThisIter)
    if nbStripes > 0 then
      (accumulate acc input secret.bytes nbStripes,0+nbStripes,input.drop (nbStripes*stripeLen))
    else (acc,0,input)
  else if nbStripes > 0 then
    (accumulate acc input initialSecret nbStripes,nbStripesSoFar+nbStripes,
      input.drop (nbStripes*stripeLen))
  else (acc,nbStripesSoFar,input)

/-- `XXH3_state_t` on a secret of its own; a seed is never set. -/
structure State where
  acc : Accs
  buffer : Bytes
  bufferedSize : Nat
  nbStripesSoFar : Nat
  totalLen : UInt64
  secret : Secret

/-- `XXH3_64bits_reset_withSecret`; the buffer keeps what the memory held. -/
def resetWithSecret (secret : Secret) (buffer : Bytes) : State where
  acc := initAcc
  buffer := buffer
  bufferedSize := 0
  nbStripesSoFar := 0
  totalLen := 0
  secret := secret

def reset (buffer : Bytes) : State := resetWithSecret defaultSecret buffer

def completeBuffer (state : State) (input : Bytes) : State × Bytes :=
  let loadSize := internalBufferSize-state.bufferedSize
  let buffer := overwrite state.buffer state.bufferedSize (input.take loadSize)
  let (acc,nbStripesSoFar,_) := consumeStripes state.secret state.acc state.nbStripesSoFar buffer
    internalBufferStripes
  ({ state with
      acc := acc, nbStripesSoFar := nbStripesSoFar, buffer := buffer, bufferedSize := 0 },
    input.drop loadSize)

/-- Stripes are consumed out of the input, and the last is left at the end of the buffer. -/
def passBuffer (state : State) (input : Bytes) : State × Bytes :=
  let nbStripes := (input.length-1) / stripeLen
  let (acc,nbStripesSoFar,rest) := consumeStripes state.secret state.acc state.nbStripesSoFar input
    nbStripes
  let lastStripe := (input.drop (nbStripes*stripeLen-stripeLen)).take stripeLen
  ({ state with
      acc := acc, nbStripesSoFar := nbStripesSoFar
      buffer := overwrite state.buffer (internalBufferSize-stripeLen) lastStripe },rest)

/-- The rest of an update that does not fit the buffer, which is empty by now. -/
def updateEmpty (state : State) (input : Bytes) : State :=
  let (state,input) :=
    if input.length > internalBufferSize then passBuffer state input else (state,input)
  { state with buffer := overwrite state.buffer 0 input, bufferedSize := input.length }

def update (state : State) (input : Bytes) : State :=
  let state := { state with totalLen := state.totalLen+UInt64.ofNat input.length }
  if input.length ≤ internalBufferSize-state.bufferedSize then
    { state with
      buffer := overwrite state.buffer state.bufferedSize input
      bufferedSize := state.bufferedSize+input.length }
  else
    let (state,input) :=
      if state.bufferedSize ≠ 0 then completeBuffer state input else (state,input)
    updateEmpty state input

/-- `XXH3_digest_long`, on a copy of the accumulators. -/
def digestLong (state : State) : Accs :=
  if state.bufferedSize ≥ stripeLen then
    let nbStripes := (state.bufferedSize-1) / stripeLen
    let (acc,_,_) := consumeStripes state.secret state.acc state.nbStripesSoFar state.buffer
      nbStripes
    accumulateLast acc (state.buffer.drop (state.bufferedSize-stripeLen)) state.secret
  else
    let catchupSize := stripeLen-state.bufferedSize
    let lastStripe := (state.buffer.drop (internalBufferSize-catchupSize)).take catchupSize ++
      state.buffer.take state.bufferedSize
    accumulateLast state.acc lastStripe state.secret

def digest (state : State) : UInt64 :=
  if state.totalLen > UInt64.ofNat midsizeMax then
    finalizeLong (digestLong state) state.secret state.totalLen
  else bitsWithSecret state.buffer state.totalLen.toNat state.secret

end Xxh3
end QData
