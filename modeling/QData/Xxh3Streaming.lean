import Mathlib.Data.List.Basic
import QData.Xxh3
/-! However an input is cut into updates, the streaming state of XXH3 ends with the hash of
the whole input. -/
set_option autoImplicit false

namespace QData
namespace Xxh3
open Words Stripes

/-! No hash function reads behind the input it is given. -/

theorem readLE64_take {input : Bytes} {len i : Nat} (h : i+8 ≤ len) :
    readLE64 ((input.take len).drop i) = readLE64 (input.drop i) := by
  rw [readLE64,readLE64,List.drop_take,List.take_take,Nat.min_eq_left (by omega)]

theorem readLE32_take {input : Bytes} {len i : Nat} (h : i+4 ≤ len) :
    readLE32 ((input.take len).drop i) = readLE32 (input.drop i) := by
  rw [readLE32,readLE32,List.drop_take,List.take_take,Nat.min_eq_left (by omega)]

theorem mix16B_take {input : Bytes} {len i : Nat} (h : i+16 ≤ len) (secret : Bytes)
    (seed : UInt64) :
    mix16B ((input.take len).drop i) secret seed = mix16B (input.drop i) secret seed := by
  have hlo : readLE64 ((input.take len).drop i) = _ := readLE64_take (by omega)
  have hhi : readLE64 ((input.take len).drop (i+8)) = _ := readLE64_take (by omega)
  rw [← List.drop_drop,← List.drop_drop] at hhi
  rw [mix16B,mix16B,hlo,hhi]

theorem mixAt_take {input : Bytes} {len i : Nat} (h : i+16 ≤ len) (secret : Bytes)
    (seed : UInt64) (j : Nat) (acc : UInt64) :
    mixAt (input.take len) secret seed i j acc = mixAt input secret seed i j acc := by
  rw [mixAt,mixAt,mix16B_take h]

theorem getD_take {input : Bytes} {len i : Nat} (h : i < len) :
    (input.take len).getD i 0 = input.getD i 0 := by
  rw [List.getD_eq_getElem?_getD,List.getD_eq_getElem?_getD,List.getElem?_take,if_pos h]

theorem len0to16_take {input : Bytes} {len : Nat} (secret : Bytes) (seed : UInt64) :
    len0to16 (input.take len) len secret seed = len0to16 input len secret seed := by
  have hfront64 : 8 ≤ len → readLE64 (input.take len) = readLE64 input := fun h =>
    readLE64_take (i := 0) (by omega)
  have hfront32 : 4 ≤ len → readLE32 (input.take len) = readLE32 input := fun h =>
    readLE32_take (i := 0) (by omega)
  simp only [len0to16]
  split
  · rw [len9to16,len9to16,hfront64 (by omega),readLE64_take (by omega)]
  · split
    · rw [len4to8,len4to8,hfront32 (by omega),readLE32_take (by omega)]
    · split
      · rw [len1to3,len1to3,getD_take (by omega),getD_take (by omega),getD_take (by omega)]
      · rfl

theorem len17to128_take {input : Bytes} {len : Nat} (h : 16 < len) (secret : Bytes)
    (seed : UInt64) :
    len17to128 (input.take len) len secret seed = len17to128 input len secret seed := by
  simp only [len17to128]
  split_ifs <;> simp (disch := omega) only [mixAt_take]

theorem len129to240_take {input : Bytes} {len : Nat} (h : 128 < len) (secret : Bytes)
    (seed : UInt64) :
    len129to240 (input.take len) len secret seed = len129to240 input len secret seed := by
  have hfirst : ∀ acc, (List.range 8).foldl
      (fun acc i => mixAt (input.take len) secret seed (16*i) (16*i) acc) acc =
        (List.range 8).foldl (fun acc i => mixAt input secret seed (16*i) (16*i) acc) acc := by
    refine fun acc => List.foldl_ext _ _ _ fun acc i hi => mixAt_take ?_ _ _ _ _
    rw [List.mem_range] at hi
    omega
  have hrest : ∀ acc, (List.range' 8 (len / 16-8)).foldl
      (fun acc i => mixAt (input.take len) secret seed (16*i) (16*(i-8)+midsizeStartoffset) acc)
        acc = (List.range' 8 (len / 16-8)).foldl
      (fun acc i => mixAt input secret seed (16*i) (16*(i-8)+midsizeStartoffset) acc) acc := by
    refine fun acc => List.foldl_ext _ _ _ fun acc i hi => mixAt_take ?_ _ _ _ _
    rw [List.mem_range'_1] at hi
    omega
  simp only [len129to240,hfirst,hrest]
  rw [mix16B_take (by omega)]

theorem accumulate512_take (acc : Accs) (input secret : Bytes) :
    accumulate512 acc (input.take stripeLen) secret = accumulate512 acc input secret := by
  refine List.foldl_ext _ _ _ fun acc lane _ => ?_
  have hlane := lane.isLt
  rw [scalarRound,scalarRound,readLE64_take (by simp only [stripeLen]; omega)]

theorem accumulate_succ (acc : Accs) (input secret : Bytes) (n : Nat) :
    accumulate acc input secret (n+1) = accumulate512 (accumulate acc input secret n)
      (input.drop (n*stripeLen)) (secret.drop (n*secretConsumeRate)) := by
  simp only [accumulate,List.range_succ,List.foldl_append,List.foldl_cons,List.foldl_nil]

/-! Stripes go in one by one, and a block ends with a scramble. -/

def tick (secret : Secret) (s : Accs × Nat) (stripe : Bytes) : Accs × Nat :=
  let acc := accumulate512 s.1 stripe (secret.bytes.drop (s.2*secretConsumeRate))
  if s.2+1 = secret.nbStripesPerBlock then (scrambleAcc acc secret.last,0) else (acc,s.2+1)

def takes (secret : Secret) (n : Nat) (input : Bytes) (s : Accs × Nat) : Accs × Nat :=
  absorb (tick secret) stripeLen n input s

section
variable {secret : Secret} {acc : Accs} {input : Bytes} {k n : Nat}

theorem takes_succ (s : Accs × Nat) :
    takes secret (n+1) input s = tick secret (takes secret n input s)
      (input.drop (n*stripeLen)) := by
  rw [takes,absorb_succ,tick,accumulate512_take]
  rfl

theorem takes_add (m : Nat) (s : Accs × Nat) :
    takes secret (m+n) input s = takes secret n (input.drop (m*stripeLen))
      (takes secret m input s) := absorb_add _ _ m n input s

theorem drop_rate (i j : Nat) (bs : Bytes) :
    (bs.drop (i*secretConsumeRate)).drop (j*secretConsumeRate) =
      bs.drop ((i+j)*secretConsumeRate) := by
  rw [List.drop_drop,Nat.add_mul]

theorem takes_inside (h : k+n < secret.nbStripesPerBlock) :
    takes secret n input (acc,k) =
      (accumulate acc input (secret.bytes.drop (k*secretConsumeRate)) n,k+n) := by
  induction n with
  | zero => rfl
  | succ n ih =>
    rw [takes_succ,ih (by omega),tick,if_neg (by omega),accumulate_succ,drop_rate]
    rfl

theorem takes_full (hn : 0 < n) (h : k+n = secret.nbStripesPerBlock) :
    takes secret n input (acc,k) =
      (scrambleAcc (accumulate acc input (secret.bytes.drop (k*secretConsumeRate)) n)
        secret.last,0) := by
  obtain ⟨n,rfl⟩ := Nat.exists_eq_succ_of_ne_zero (Nat.ne_of_gt hn)
  rw [takes_succ,takes_inside (by omega),tick,if_pos (by omega),accumulate_succ,drop_rate]

theorem takes_block : takes secret secret.nbStripesPerBlock input (acc,0) =
    (scrambleAcc (accumulate acc input secret.bytes secret.nbStripesPerBlock) secret.last,0) := by
  have h : takes secret _ input (acc,0) = _ := takes_full secret.nbStripesPerBlock_pos
    (Nat.zero_add _)
  rwa [Nat.zero_mul,List.drop_zero] at h

theorem consumeBlocks_takes (secret : Secret) (acc : Accs) (input : Bytes) (n : Nat) :
    ∃ m, (consumeBlocks secret acc input n).2.2 < secret.nbStripesPerBlock ∧
      n = m+(consumeBlocks secret acc input n).2.2 ∧
      (consumeBlocks secret acc input n).2.1 = input.drop (m*stripeLen) ∧
      takes secret m input (acc,0) = ((consumeBlocks secret acc input n).1,0) := by
  induction acc, input, n using consumeBlocks.induct secret with
  | case1 acc input n h ih =>
    obtain ⟨m,hlt,hn,hrest,htakes⟩ := ih
    rw [consumeBlocks,dif_pos h]
    refine ⟨secret.nbStripesPerBlock+m,hlt,by omega,?_,?_⟩
    · rw [hrest,List.drop_drop,Nat.add_mul]
    · rw [takes_add,takes_block,htakes]
  | case2 acc input n h =>
    rw [consumeBlocks,dif_neg h]
    exact ⟨0,Nat.lt_of_not_le h,(Nat.zero_add n).symm,by simp,rfl⟩

theorem consumeStripes_takes (hk : k < secret.nbStripesPerBlock) :
    consumeStripes secret acc k input n =
      ((takes secret n input (acc,k)).1,(takes secret n input (acc,k)).2,
        input.drop (n*stripeLen)) := by
  rw [consumeStripes]
  split
  · next hfull =>
    have hhead : takes secret _ input (acc,k) = _ := takes_full
      (show 0 < secret.nbStripesPerBlock-k by omega) (Nat.add_sub_of_le (Nat.le_of_lt hk))
    obtain ⟨m,hlt,hn,hrest,htakes⟩ := consumeBlocks_takes secret
      (scrambleAcc (accumulate acc input (secret.bytes.drop (k*secretConsumeRate))
        (secret.nbStripesPerBlock-k)) secret.last)
      (input.drop ((secret.nbStripesPerBlock-k)*stripeLen)) (n-(secret.nbStripesPerBlock-k))
    simp only
    generalize consumeBlocks _ _ _ _ = blocks at *
    obtain ⟨acc',input',left⟩ := blocks
    simp only at hlt hn hrest htakes ⊢
    have hsplit : n = secret.nbStripesPerBlock-k+(m+left) := by omega
    subst hrest
    have htail : takes secret left
        ((input.drop ((secret.nbStripesPerBlock-k)*stripeLen)).drop (m*stripeLen)) (acc',0) = _ :=
      takes_inside (by omega)
    rw [Nat.zero_mul,List.drop_zero] at htail
    have hall : takes secret n input (acc,k) = takes secret left
        ((input.drop ((secret.nbStripesPerBlock-k)*stripeLen)).drop (m*stripeLen)) (acc',0) := by
      rw [hsplit,takes_add,hhead,takes_add,htakes]
    have hpast : input.drop (n*stripeLen) =
        ((input.drop ((secret.nbStripesPerBlock-k)*stripeLen)).drop (m*stripeLen)).drop
          (left*stripeLen) := by
      rw [hsplit,List.drop_drop,List.drop_drop,Nat.add_mul,Nat.add_mul]
    rw [hall,hpast,htail]
    split
    · rfl
    · next hleft =>
      have hzero : left = 0 := by omega
      subst hzero
      simp [accumulate]
  · next hpart =>
    have htail : takes secret n input (acc,k) = _ := takes_inside (by omega)
    rw [htail]
    split
    · rfl
    · next hn =>
      have hzero : n = 0 := by omega
      subst hzero
      simp [accumulate]

theorem takes_lt (hk : k < secret.nbStripesPerBlock) :
    (takes secret n input (acc,k)).2 < secret.nbStripesPerBlock := by
  induction n with
  | zero => exact hk
  | succ n ih =>
    rw [takes_succ,tick]
    split
    · exact secret.nbStripesPerBlock_pos
    · simp only
      omega

theorem takes_blocks (secret : Secret) (acc : Accs) (input : Bytes) (n : Nat) :
    takes secret (n*secret.nbStripesPerBlock) input (acc,0) =
      ((List.range n).foldl (fun acc n => scrambleAcc
        (accumulate acc (input.drop (n*(stripeLen*secret.nbStripesPerBlock))) secret.bytes
          secret.nbStripesPerBlock) secret.last) acc,0) := by
  induction n with
  | zero => rw [Nat.zero_mul]; rfl
  | succ n ih =>
    have hpos : n*secret.nbStripesPerBlock*stripeLen = n*(stripeLen*secret.nbStripesPerBlock) := by
      rw [Nat.mul_assoc,Nat.mul_comm stripeLen]
    rw [Nat.succ_mul,takes_add,ih,takes_block,hpos,List.range_succ,List.foldl_append]
    rfl

theorem hashLongLoop_takes (acc : Accs) (input : Bytes) (len : Nat) (secret : Secret) :
    hashLongLoop acc input len secret =
      accumulateLast (takes secret ((len-1) / stripeLen) input (acc,0)).1
        (input.drop (len-stripeLen)) secret := by
  have hpos := secret.nbStripesPerBlock_pos
  have hblocks : (len-1) / (stripeLen*secret.nbStripesPerBlock) =
      (len-1) / stripeLen / secret.nbStripesPerBlock := (Nat.div_div_eq_div_mul _ _ _).symm
  have hrest : (len-1-stripeLen*secret.nbStripesPerBlock*
      ((len-1) / stripeLen / secret.nbStripesPerBlock)) / stripeLen =
        (len-1) / stripeLen % secret.nbStripesPerBlock := by
    rw [Nat.mul_assoc,Nat.sub_mul_div,Nat.mod_eq_sub]
  have hsplit : (len-1) / stripeLen = (len-1) / stripeLen / secret.nbStripesPerBlock*
      secret.nbStripesPerBlock+(len-1) / stripeLen % secret.nbStripesPerBlock :=
    (Nat.div_add_mod' _ _).symm
  have hlt := Nat.mod_lt ((len-1) / stripeLen) hpos
  simp only [hashLongLoop,hblocks,hrest]
  generalize (len-1) / stripeLen / secret.nbStripesPerBlock = nbBlocks at *
  generalize (len-1) / stripeLen % secret.nbStripesPerBlock = nbStripes at *
  have hplace : nbBlocks*secret.nbStripesPerBlock*stripeLen =
      nbBlocks*(stripeLen*secret.nbStripesPerBlock) := by
    rw [Nat.mul_assoc,Nat.mul_comm stripeLen]
  rw [hsplit,takes_add,takes_blocks,hplace,takes_inside (by omega),Nat.zero_mul,List.drop_zero]

end

theorem bitsWithSecret_take {input : Bytes} {len : Nat} (h : len ≤ midsizeMax)
    (secret : Secret) : bitsWithSecret (input.take len) len secret = bitsWithSecret input len secret
    := by
  simp only [bitsWithSecret]
  split
  · exact len0to16_take _ _
  · split
    · exact len17to128_take (by omega) _ _
    · exact len129to240_take (by omega) _ _

/-- The state has absorbed `n` stripes of `fed` and holds the rest in its buffer. -/
structure Absorbed (secret : Secret) (fed : Bytes) (state : State) (n : Nat) : Prop where
  keyed : state.secret = secret
  room : state.buffer.length = internalBufferSize
  held : Held stripeLen fed state.buffer state.bufferedSize n
  taken : takes secret n fed (initAcc,0) = (state.acc,state.nbStripesSoFar)

namespace Absorbed

variable {secret : Secret} {fed input : Bytes} {state : State} {n : Nat}

theorem place_lt (h : Absorbed secret fed state n) :
    state.nbStripesSoFar < secret.nbStripesPerBlock := by
  have hlt : (takes secret n fed (initAcc,0)).2 < _ := takes_lt secret.nbStripesPerBlock_pos
  rwa [h.taken] at hlt

theorem taken_append (h : Absorbed secret fed state n) (input : Bytes) :
    takes secret n (fed ++ input) (initAcc,0) = (state.acc,state.nbStripesSoFar) := by
  have hcounted := h.held.counted
  rw [takes,absorb_append _ _ (by omega)]
  exact h.taken

theorem taken_add (h : Absorbed secret fed state n) (hsize : state.bufferedSize = 0) (k : Nat) :
    takes secret (n+k) (fed ++ input) (initAcc,0) =
      takes secret k input (state.acc,state.nbStripesSoFar) := by
  have hcounted := h.held.counted
  rw [takes_add,h.taken_append,List.drop_left' (by omega)]

theorem consume (h : Absorbed secret fed state n) (input : Bytes) (k : Nat) :
    consumeStripes state.secret state.acc state.nbStripesSoFar input k =
      ((takes secret k input (state.acc,state.nbStripesSoFar)).1,
        (takes secret k input (state.acc,state.nbStripesSoFar)).2,input.drop (k*stripeLen)) := by
  rw [h.keyed,consumeStripes_takes h.place_lt]

theorem put (h : Absorbed secret fed state n)
    (hfit : state.bufferedSize+input.length ≤ internalBufferSize) :
    Absorbed secret (fed ++ input)
      { state with
        buffer := overwrite state.buffer state.bufferedSize input
        bufferedSize := state.bufferedSize+input.length } n where
  keyed := h.keyed
  room := by rw [length_overwrite (by rw [h.room]; exact hfit),h.room]
  held := h.held.put (by rw [h.room]; exact hfit)
  taken := h.taken_append input

theorem completeBuffer (h : Absorbed secret fed state n)
    (hfull : internalBufferSize-state.bufferedSize ≤ input.length) :
    Absorbed secret (fed ++ input.take (internalBufferSize-state.bufferedSize))
      (completeBuffer state input).1 (n+internalBufferStripes) := by
  have hload : (input.take (internalBufferSize-state.bufferedSize)).length =
      internalBufferSize-state.bufferedSize := by
    rw [List.length_take,Nat.min_eq_left hfull]
  have hsize := h.held.room
  rw [h.room] at hsize
  simp only [Xxh3.completeBuffer]
  generalize input.take (internalBufferSize-state.bufferedSize) = first at *
  have hsum : state.bufferedSize+first.length = internalBufferSize := by omega
  have hput : Absorbed secret (fed ++ first) _ n := h.put (by omega)
  have hheld := hput.held
  have hbuffer := hput.room
  simp only at hheld hbuffer
  rw [hsum,← hbuffer] at hheld
  have hfront := hheld.front
  rw [List.take_length] at hfront
  refine ⟨h.keyed,hbuffer,hheld.flush (by rw [hbuffer]; rfl) (by decide),?_⟩
  rw [takes_add,hput.taken,← hfront]
  simp only [h.consume]

theorem passBuffer (h : Absorbed secret fed state n) (hsize : state.bufferedSize = 0)
    (hlong : internalBufferSize < input.length) :
    Absorbed secret (fed ++ input.take ((input.length-1) / stripeLen*stripeLen))
      (passBuffer state input).1 (n+(input.length-1) / stripeLen) := by
  have hroom := h.room
  have hheld := h.held
  rw [hsize] at hheld
  simp only [internalBufferSize] at hlong
  have hpos : 0 < (input.length-1) / stripeLen := by simp only [stripeLen]; omega
  have hle : (input.length-1) / stripeLen*stripeLen ≤ input.length :=
    Nat.le_trans (Nat.div_mul_le_self _ _) (Nat.sub_le _ _)
  have hlen : (input.take ((input.length-1) / stripeLen*stripeLen)).length =
      (input.length-1) / stripeLen*stripeLen := by
    rw [List.length_take,Nat.min_eq_left hle]
  have hpass := hheld.pass hpos hlen (by rw [hroom]; decide)
  have hlast : (input.take ((input.length-1) / stripeLen*stripeLen)).drop
      (((input.length-1) / stripeLen-1)*stripeLen) =
        (input.drop ((input.length-1) / stripeLen*stripeLen-stripeLen)).take stripeLen := by
    rw [List.drop_take,Nat.sub_mul,Nat.one_mul]
    congr 1
    have hstep : stripeLen ≤ (input.length-1) / stripeLen*stripeLen :=
      Nat.le_mul_of_pos_left _ hpos
    omega
  rw [hlast,hroom] at hpass
  refine ⟨h.keyed,?_,?_,?_⟩
  · rw [← hroom]
    refine length_overwrite ?_
    rw [hroom,List.length_take]
    simp only [internalBufferSize,stripeLen]
    omega
  · simpa only [Xxh3.passBuffer,hsize] using hpass
  · rw [h.taken_add hsize]
    have htake : takes secret ((input.length-1) / stripeLen)
        (input.take ((input.length-1) / stripeLen*stripeLen)) (state.acc,state.nbStripesSoFar) =
          takes secret ((input.length-1) / stripeLen) input (state.acc,state.nbStripesSoFar) :=
      absorb_congr _ _ (by rw [List.take_take,Nat.min_self]) _
    rw [htake]
    simp only [Xxh3.passBuffer,h.consume]

end Absorbed

/-- A state that has been fed these bytes. Once stripes are absorbed the buffer is never
empty, for the last stripe is still to come. -/
structure Represents (secret : Secret) (fed : Bytes) (state : State) : Prop where
  total : state.totalLen = UInt64.ofNat fed.length
  absorbed : ∃ n, Absorbed secret fed state n ∧
    (0 < n → 0 < state.bufferedSize ∧ internalBufferSize < fed.length)

section
variable {secret : Secret} {fed : Bytes} {state : State}

theorem reset_represents (secret : Secret) {buffer : Bytes}
    (hroom : buffer.length = internalBufferSize) :
    Represents secret [] (resetWithSecret secret buffer) where
  total := rfl
  absorbed := ⟨0,⟨rfl,hroom,Held.start _ _,rfl⟩,fun h => absurd h (Nat.lt_irrefl 0)⟩

theorem updateEmpty_totalLen (state : State) (input : Bytes) :
    (updateEmpty state input).totalLen = state.totalLen := by
  by_cases hpast : input.length > internalBufferSize
  · simp only [updateEmpty,if_pos hpast,passBuffer]
  · simp only [updateEmpty,if_neg hpast]

theorem updateEmpty_absorbed {input : Bytes} {n : Nat} (h : Absorbed secret fed state n)
    (hsize : state.bufferedSize = 0) (hpos : 0 < input.length) :
    (∃ m, Absorbed secret (fed ++ input) (updateEmpty state input) m) ∧
      0 < (updateEmpty state input).bufferedSize := by
  by_cases hpast : input.length > internalBufferSize
  · simp only [updateEmpty,if_pos hpast]
    have hpass := h.passBuffer hsize hpast
    have hrest : (passBuffer state input).2 =
        input.drop ((input.length-1) / stripeLen*stripeLen) := by
      simp only [passBuffer,h.consume]
    have hzero : (passBuffer state input).1.bufferedSize = 0 := hsize
    have hmod := Nat.div_add_mod' (input.length-1) stripeLen
    have hlt := Nat.mod_lt (input.length-1) (show stripeLen > 0 by decide)
    have hput : Absorbed secret (_ ++ input.drop ((input.length-1) / stripeLen*stripeLen)) _ _ :=
        hpass.put (by
      rw [hzero,List.length_drop]
      simp only [internalBufferSize,stripeLen] at *
      omega)
    rw [hzero,Nat.zero_add,List.append_assoc,List.take_append_drop] at hput
    simp only [hrest]
    refine ⟨⟨_,hput⟩,?_⟩
    rw [List.length_drop]
    omega
  · simp only [updateEmpty,if_neg hpast]
    have hput : Absorbed secret (fed ++ input) _ n := h.put (by omega)
    rw [hsize,Nat.zero_add] at hput
    exact ⟨⟨_,hput⟩,hpos⟩

theorem update_represents (h : Represents secret fed state) (input : Bytes) :
    Represents secret (fed ++ input) (update state input) := by
  obtain ⟨htotal,n,habsorbed,hstored⟩ := h
  have htotal' : state.totalLen+UInt64.ofNat input.length =
      UInt64.ofNat (fed ++ input).length := by
    rw [htotal,List.length_append,UInt64.ofNat_add]
  have hcounted := habsorbed.held.counted
  have hsize := habsorbed.held.room
  rw [habsorbed.room] at hsize
  have hnew : Absorbed secret fed
      { state with totalLen := state.totalLen+UInt64.ofNat input.length } n :=
    ⟨habsorbed.keyed,habsorbed.room,habsorbed.held,habsorbed.taken⟩
  simp only [update]
  split
  · next hfit =>
    refine ⟨htotal',n,hnew.put (by simp only; omega),fun hn => ?_⟩
    have hbefore := hstored hn
    rw [List.length_append]
    exact ⟨Nat.add_pos_left hbefore.1 _,Nat.lt_add_right _ hbefore.2⟩
  · next hpast =>
    have hlong : internalBufferSize < (fed ++ input).length := by
      rw [List.length_append]
      omega
    split
    · next hbuffered =>
      have hleft : 0 < (input.drop (internalBufferSize-state.bufferedSize)).length := by
        rw [List.length_drop]
        omega
      have hfull : Absorbed secret (_ ++ input.take _) _ _ :=
        hnew.completeBuffer (by simp only; omega)
      obtain ⟨⟨m,hrest⟩,hpos⟩ := updateEmpty_absorbed hfull rfl hleft
      rw [List.append_assoc,List.take_append_drop] at hrest
      refine ⟨?_,m,hrest,fun _ => ⟨hpos,hlong⟩⟩
      rw [← htotal',updateEmpty_totalLen]
      rfl
    · next hempty =>
      have hleft : 0 < input.length := by omega
      obtain ⟨⟨m,hrest⟩,hpos⟩ := updateEmpty_absorbed hnew (Decidable.not_not.mp hempty) hleft
      refine ⟨?_,m,hrest,fun _ => ⟨hpos,hlong⟩⟩
      rw [← htotal',updateEmpty_totalLen]

theorem updates_represent (h : Represents secret fed state) (pieces : List Bytes) :
    Represents secret (fed ++ pieces.flatten) (pieces.foldl update state) := by
  induction pieces generalizing fed state with
  | nil => simpa using h
  | cons piece pieces ih =>
    rw [List.flatten_cons,← List.append_assoc]
    exact ih (update_represents h piece)

theorem digestLong_absorbed {n : Nat} (h : Absorbed secret fed state n)
    (hpos : 0 < state.bufferedSize) (hn : state.bufferedSize < stripeLen → 0 < n) :
    digestLong state = hashLongLoop initAcc fed fed.length secret := by
  have hroom := h.room
  have hrest := h.held.absorb_rest hpos (by decide) (tick secret) (initAcc,0)
  have htaken := h.taken
  rw [takes] at htaken
  rw [htaken] at hrest
  rw [hashLongLoop_takes,takes,← hrest,digestLong]
  split
  · next hlong =>
    have hlast := h.held.last_held hlong
    simp only [h.consume]
    rw [h.keyed,accumulateLast,accumulateLast,← accumulate512_take,hlast]
    rfl
  · next hshort =>
    have hzero : (state.bufferedSize-1) / stripeLen = 0 :=
      Nat.div_eq_of_lt (by omega)
    have hlast := h.held.last_split (hn (by omega)) (by omega) (by
      rw [hroom]
      simp only [internalBufferSize,stripeLen] at *
      omega)
    rw [hroom] at hlast
    have hwhole : (state.buffer.drop (internalBufferSize-(stripeLen-state.bufferedSize))).length ≤
        stripeLen-state.bufferedSize := by
      rw [List.length_drop]
      omega
    rw [hzero]
    simp only [List.take_of_length_le hwhole]
    rw [hlast,h.keyed]
    rfl

/-- The digest is the hash of all that has been fed. -/
theorem digest_represents (h : Represents secret fed state) (hlen : fed.length < 2 ^ 64) :
    digest state = bitsWithSecret fed fed.length secret := by
  obtain ⟨htotal,n,habsorbed,hstored⟩ := h
  have hcounted := habsorbed.held.counted
  have htoNat : state.totalLen.toNat = fed.length := by
    rw [htotal,UInt64.toNat_ofNat_of_lt' hlen]
  have hcompare : (state.totalLen > UInt64.ofNat midsizeMax) ↔ midsizeMax < fed.length := by
    rw [gt_iff_lt,UInt64.lt_iff_toNat_lt,htoNat]
    rfl
  rw [digest]
  split
  · next hlong =>
    rw [hcompare] at hlong
    have hn : state.bufferedSize < stripeLen → 0 < n := by
      intro hsize
      refine Nat.pos_of_ne_zero fun hzero => ?_
      subst hzero
      simp only [midsizeMax,stripeLen] at *
      omega
    have hpos : 0 < state.bufferedSize := by
      rcases Nat.eq_zero_or_pos n with hzero | hpos
      · subst hzero
        omega
      · exact (hstored hpos).1
    rw [digestLong_absorbed habsorbed hpos hn,habsorbed.keyed,htotal,bitsWithSecret]
    simp only [midsizeMax] at hlong
    rw [if_neg (by omega),if_neg (by omega),if_neg (by simp only [midsizeMax]; omega),hashLong]
  · next hshort =>
    rw [hcompare] at hshort
    have hzero : n = 0 := by
      refine Nat.eq_zero_of_not_pos fun hpos => hshort ?_
      exact Nat.lt_trans (by decide) (hstored hpos).2
    subst hzero
    have hsize : state.bufferedSize = fed.length := by omega
    have hfront := habsorbed.held.front
    rw [hsize,Nat.zero_mul,List.drop_zero] at hfront
    rw [htoNat,habsorbed.keyed,← bitsWithSecret_take (Nat.le_of_not_lt hshort),hfront]

/-- The streaming hash is the hash of one input, however that is cut into updates and
whatever the memory of the buffer held. -/
theorem digest_updates (secret : Secret) {buffer : Bytes}
    (hroom : buffer.length = internalBufferSize) (pieces : List Bytes)
    (hlen : pieces.flatten.length < 2 ^ 64) :
    digest (pieces.foldl update (resetWithSecret secret buffer)) =
      bitsWithSecret pieces.flatten pieces.flatten.length secret :=
  digest_represents (updates_represent (reset_represents secret hroom) pieces) hlen

/-- Two updates that leave a last stripe partly behind the first. -/
theorem digest_updates_two :
    digest ([List.replicate 300 1,List.replicate 30 2].foldl update
        (resetWithSecret defaultSecret (List.replicate 256 7))) =
      bitsWithSecret (List.replicate 300 1 ++ List.replicate 30 2) 330 defaultSecret := by
  have h := @digest_updates defaultSecret (List.replicate 256 7) (List.length_replicate ..)
    [List.replicate 300 1,List.replicate 30 2] (by
      rw [List.flatten_cons,List.flatten_cons,List.flatten_nil,List.length_append,
        List.length_append,List.length_replicate,List.length_replicate]
      decide)
  simpa only [List.flatten_cons,List.flatten_nil,List.append_nil,List.length_append,
    List.length_replicate] using h

end

end Xxh3
end QData
