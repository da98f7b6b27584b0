import Mathlib.Data.Nat.Bitwise
import Mathlib.Tactic.Ring
import VkMiner.Lib.Loops
set_option autoImplicit false

/-! What the words of a program do to the mix, as the host computes it and as the shaders do. -/

namespace VkMiner.Progpow
open List

abbrev Word := BitVec 32

def rotl32 (x n : Word) : Word := if n = 0 then x else (x <<< n) ||| (x >>> (32 - n))

/-- The passes of `clz32` that are left, its word and its count. -/
def clzLoop : Nat → Word → Word → Word
  | 0,_,n => n
  | k + 1,x,n => if x &&& 0x80000000 = 0 then clzLoop k (x <<< 1) (n + 1) else n

def clz32 (x : Word) : Word := clzLoop 32 x 0

def popcountLoop : Nat → Word → Word → Word
  | 0,_,n => n
  | k + 1,x,n => if x = 0 then n else popcountLoop k (x >>> 1) (n + (x &&& 1))

def popcount32 (x : Word) : Word := popcountLoop 32 x 0

def mulHi32 (a b : Word) : Word := ((a.setWidth 64 * b.setWidth 64) >>> 32).setWidth 32

def randomMath (a b selector : Word) : Word :=
  match (selector % 11).toNat with
  | 1 => a * b
  | 2 => mulHi32 a b
  | 3 => if a < b then a else b
  | 4 => rotl32 a (b &&& 31)
  | 5 => rotl32 a ((32 - (b &&& 31)) &&& 31)
  | 6 => a &&& b
  | 7 => a ||| b
  | 8 => a ^^^ b
  | 9 => clz32 a + clz32 b
  | 10 => popcount32 a + popcount32 b
  | _ => a + b

def randomMerge (a b selector : Word) : Word :=
  let x := (selector >>> 16) % 31 + 1
  match (selector % 4).toNat with
  | 0 => a * 33 + b
  | 1 => (a ^^^ b) * 33
  | 2 => rotl32 a x ^^^ b
  | _ => rotl32 a (32 - x) ^^^ b

namespace Glsl

def findMSB (x : Word) : Int := if x = 0 then -1 else Nat.log2 x.toNat

def bitCount (x : Word) : Word := BitVec.ofNat 32 ((range 32).countP fun i => x.getLsbD i)

def umulExtended (a b : Word) : Word × Word :=
  (BitVec.ofNat 32 (a.toNat * b.toNat / 2 ^ 32),BitVec.ofNat 32 (a.toNat * b.toNat))

def min (a b : Word) : Word := if b < a then b else a

def rotl32 (x n : Word) : Word := (x <<< n) ||| (x >>> (32 - n))

def rot32 (x n : Word) : Word :=
  let n := n &&& 31
  if n = 0 then x else (x <<< n) ||| (x >>> (32 - n))

def mulHi32 (a b : Word) : Word := (umulExtended a b).1

def clz32 (x : Word) : Word := BitVec.ofInt 32 (31 - findMSB x)

def randomMath (a b selector : Word) : Word :=
  match (selector % 11).toNat with
  | 1 => a * b
  | 2 => mulHi32 a b
  | 3 => min a b
  | 4 => rot32 a b
  | 5 => rot32 a (32 - (b &&& 31))
  | 6 => a &&& b
  | 7 => a ||| b
  | 8 => a ^^^ b
  | 9 => clz32 a + clz32 b
  | 10 => bitCount a + bitCount b
  | _ => a + b

def randomMerge (a b selector : Word) : Word :=
  let x := (selector >>> 16) % 31 + 1
  match (selector % 4).toNat with
  | 1 => (a ^^^ b) * 33
  | 2 => rot32 a x ^^^ b
  | 3 => rot32 a (32 - x) ^^^ b
  | _ => a * 33 + b

def bswap32 (x : Word) : Word :=
  (x >>> 24) ||| ((x >>> 8) &&& 0x0000ff00) ||| ((x <<< 8) &&& 0x00ff0000) ||| (x <<< 24)

end Glsl

variable {x a b n : Word} {k m : Nat}

theorem topBit_clear_iff : x &&& 0x80000000 = 0 ↔ x.toNat < 2 ^ 31 := by
  rw [← BitVec.toNat_inj,BitVec.toNat_and]
  have hx := x.isLt
  change x.toNat &&& 2 ^ 31 = 0 ↔ _
  rw [Nat.and_two_pow,Nat.testBit_eq_decide_div_mod_eq]
  simp
  omega

/-- The shifts bring a one to the top after as many passes as there are zeros above it. -/
theorem clzLoop_eq (hk : k ≤ 32) (hx : x.toNat = m * 2 ^ (32 - k)) (hm : m < 2 ^ k) (n : Word) :
    clzLoop k x n = n + BitVec.ofNat 32 (if m = 0 then k else k - 1 - Nat.log2 m) := by
  induction k generalizing x n with
  | zero =>
    obtain rfl : m = 0 := by omega
    simp [clzLoop]
  | succ k ih =>
    have hp : 2 ^ (32 - k) = 2 * 2 ^ (32 - (k + 1)) := by
      rw [← Nat.pow_succ',show (32 - (k + 1)).succ = 32 - k from by omega]
    have hs : 2 ^ k * 2 ^ (32 - (k + 1)) = 2 ^ 31 := by
      rw [← Nat.pow_add,show k + (32 - (k + 1)) = 31 from by omega]
    have hlt : x.toNat < 2 ^ 31 ↔ m < 2 ^ k := by
      rw [hx,← hs]
      exact Nat.mul_lt_mul_right (Nat.two_pow_pos _)
    rw [clzLoop]
    by_cases hc : m < 2 ^ k
    · have hb := hlt.mpr hc
      rw [if_pos (topBit_clear_iff.mpr hb),ih (by omega) ?_ hc]
      · rw [BitVec.add_assoc]
        congr 1
        rw [show (1 : Word) = BitVec.ofNat 32 1 from rfl,← BitVec.ofNat_add]
        congr 1
        split_ifs with h0
        · omega
        · have := (Nat.log2_lt h0).mpr hc
          omega
      · rw [BitVec.toNat_shiftLeft,Nat.shiftLeft_eq,hp,hx]
        rw [hx] at hb
        rw [Nat.mod_eq_of_lt (by omega)]
        ring
    · have h0 : m ≠ 0 := fun h => hc (h ▸ Nat.two_pow_pos k)
      have hl : Nat.log2 m = k := (Nat.log2_eq_iff h0).mpr ⟨by omega,hm⟩
      rw [if_neg (mt topBit_clear_iff.mp (mt hlt.mp hc)),if_neg h0,hl]
      simp

theorem clz32_eq (x : Word) : Glsl.clz32 x = clz32 x := by
  rw [clz32,clzLoop_eq (m := x.toNat) (Nat.le_refl 32) (by simp) x.isLt,Glsl.clz32,Glsl.findMSB]
  by_cases h : x = 0
  · subst h
    decide
  · have h0 : x.toNat ≠ 0 := fun he => h (BitVec.toNat_inj.mp he)
    have hl := (Nat.log2_lt h0).mpr x.isLt
    rw [if_neg h,if_neg h0,show (0 : Word) = 0#32 from rfl,BitVec.zero_add,← BitVec.ofInt_natCast]
    congr 1
    omega

theorem popcountLoop_eq (hx : x.toNat < 2 ^ k) (n : Word) :
    popcountLoop k x n = n + BitVec.ofNat 32 ((range k).countP fun i => x.getLsbD i) := by
  induction k generalizing x n with
  | zero => simp [popcountLoop]
  | succ k ih =>
    rw [popcountLoop]
    split
    case isTrue h => simp [h]
    case isFalse =>
      have hs : (x >>> 1).toNat < 2 ^ k := by
        rw [BitVec.toNat_ushiftRight,Nat.shiftRight_eq_div_pow]
        omega
      have hb : x &&& 1 = BitVec.ofNat 32 (x.getLsbD 0).toNat := by
        refine BitVec.toNat_inj.mp ?_
        change x.toNat &&& 1 = (x.getLsbD 0).toNat % 2 ^ 32
        rw [Nat.and_one_is_mod,BitVec.getLsbD,Nat.testBit_zero]
        obtain h | h := Nat.mod_two_eq_zero_or_one x.toNat <;> simp [h]
      rw [ih hs,range_succ_eq_map,countP_cons,countP_map,hb,BitVec.add_assoc,← BitVec.ofNat_add]
      congr 2
      rw [Nat.add_comm]
      congr 1
      · refine countP_congr fun i _ => ?_
        simp [Nat.add_comm]
      · cases x.getLsbD 0 <;> rfl

theorem bitCount_eq (x : Word) : Glsl.bitCount x = popcount32 x := by
  rw [popcount32,popcountLoop_eq x.isLt,show (0 : Word) = 0#32 from rfl,BitVec.zero_add,
    Glsl.bitCount]

theorem mulHi32_eq (a b : Word) : Glsl.mulHi32 a b = mulHi32 a b := by
  refine BitVec.toNat_inj.mp ?_
  have ha : a.toNat % 2 ^ 64 = a.toNat := Nat.mod_eq_of_lt (by have := a.isLt; omega)
  have hb : b.toNat % 2 ^ 64 = b.toNat := Nat.mod_eq_of_lt (by have := b.isLt; omega)
  have hp : a.toNat * b.toNat % 2 ^ 64 = a.toNat * b.toNat :=
    Nat.mod_eq_of_lt (by
      have := Nat.mul_lt_mul'' a.isLt b.isLt
      rwa [← Nat.pow_add] at this)
  rw [mulHi32,BitVec.toNat_setWidth,BitVec.toNat_ushiftRight,BitVec.toNat_mul,
    BitVec.toNat_setWidth,BitVec.toNat_setWidth,ha,hb,hp,Nat.shiftRight_eq_div_pow]
  rfl

theorem min_eq (a b : Word) : Glsl.min a b = if a < b then a else b := by
  simp only [Glsl.min,BitVec.lt_def]
  split_ifs
  · omega
  · rfl
  · rfl
  · exact BitVec.toNat_inj.mp (by omega)

/-- A shift that is a word's own width is never reached: the amount is masked. -/
theorem rot32_eq (x n : Word) : Glsl.rot32 x n = rotl32 x (n &&& 31) := rfl

theorem and_31 (hn : n.toNat < 32) : n &&& 31 = n := by
  refine BitVec.toNat_inj.mp ?_
  change n.toNat &&& 2 ^ 5 - 1 = n.toNat
  rw [Nat.and_two_pow_sub_one_eq_mod,Nat.mod_eq_of_lt hn]

theorem randomMath_eq (a b selector : Word) :
    Glsl.randomMath a b selector = randomMath a b selector := by
  unfold Glsl.randomMath randomMath
  rw [mulHi32_eq,min_eq,rot32_eq,rot32_eq,clz32_eq,clz32_eq,bitCount_eq,bitCount_eq]

theorem merge_amounts (selector : Word) :
    ((selector >>> 16) % 31 + 1).toNat < 32 ∧ ((32 : Word) - ((selector >>> 16) % 31 + 1)).toNat < 32 := by
  have hm : ((selector >>> 16) % 31).toNat < 31 := by
    rw [BitVec.toNat_umod]
    exact Nat.mod_lt _ (by decide)
  generalize (selector >>> 16) % 31 = x at hm ⊢
  constructor <;> bv_omega

theorem randomMerge_eq (a b selector : Word) :
    Glsl.randomMerge a b selector = randomMerge a b selector := by
  obtain ⟨h₁,h₂⟩ := merge_amounts selector
  unfold Glsl.randomMerge randomMerge
  simp only [rot32_eq,and_31 h₁,and_31 h₂]
  have hs : (selector % 4).toNat < 4 := by
    rw [BitVec.toNat_umod]
    exact Nat.mod_lt _ (by decide)
  generalize (selector % 4).toNat = s at hs
  match s,hs with
  | 0,_ | 1,_ | 2,_ | 3,_ => rfl

end VkMiner.Progpow
