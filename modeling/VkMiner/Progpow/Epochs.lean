import Mathlib.NumberTheory.LucasLehmer
import VkMiner.Core.Hex
import VkMiner.Core.Json
import VkMiner.Progpow.Primes
set_option autoImplicit false

/-! What a fork makes of a height: the period of its program, the three epochs of its dataset, and
the sizes that follow from them. -/

namespace VkMiner.Progpow

/-- The half of `Params` that a height goes through. -/
structure Fork where
  name : CStr
  epochLength : UInt32
  periodLength : UInt32
  dagchangeEpoch : UInt32
  dagEpochMul : UInt32
  dagFullOff : UInt32
  deriving DecidableEq

def kKawpow : Fork := ⟨ascii "kawpow",7500,3,0,1,0⟩
def kMeowpow : Fork := ⟨ascii "meowpow",7500,6,110,4,0⟩
def kEvrprogpow : Fork := ⟨ascii "evrprogpow",12000,3,0,1,256⟩
def kFiropow : Fork := ⟨ascii "firopow",1300,1,0,1,64⟩
def kMeraki : Fork := ⟨ascii "meraki",27500,3,0,1,0⟩

def forks : List Fork := [kKawpow,kMeowpow,kEvrprogpow,kFiropow,kMeraki]

/-- `seed` is what the seed hash is of, `light` sizes the cache and `full` the dataset. -/
structure Epochs where
  seed : UInt32
  light : UInt32
  full : UInt32
  deriving DecidableEq

def epochsFor (f : Fork) (seedEpoch : UInt32) : Epochs :=
  let scaled :=
    if f.dagchangeEpoch ≠ 0 ∧ f.dagchangeEpoch ≤ seedEpoch then seedEpoch*f.dagEpochMul
    else seedEpoch
  ⟨seedEpoch,scaled,scaled+f.dagFullOff⟩

def epochsOf (f : Fork) (blockHeight : Nat) : Epochs :=
  epochsFor f (UInt32.ofNat (blockHeight/f.epochLength.toNat))

def periodOf (f : Fork) (blockHeight : Nat) : Nat := blockHeight/f.periodLength.toNat

def asInt (epoch : UInt32) : Int := toInt32 epoch.toNat

/-- A size in `int`, which wraps where it does not hold the product or the sum. -/
def numItems (init growth epochNumber : Int) : Nat :=
  findLargestPrime (toInt32 (init+toInt32 (epochNumber*growth)))

def calculateLightCacheNumItems (epochNumber : Int) : Nat := numItems 262144 2048 epochNumber

def calculateFullDatasetNumItems (epochNumber : Int) : Nat := numItems 8388608 65536 epochNumber

def lightCacheItems (lightEpoch : UInt32) : UInt32 :=
  UInt32.ofNat (calculateLightCacheNumItems (asInt lightEpoch))

/-- In items of 64 bytes, two of which make one of the dataset's. -/
def dagItems (fullEpoch : UInt32) : Nat := 2*calculateFullDatasetNumItems (asInt fullEpoch)

def seedRounds (seedEpoch : UInt32) : Nat := (asInt seedEpoch).toNat

def epochSeed (keccak256 : Bytes → Bytes) (seedEpoch : UInt32) : Bytes :=
  Nat.iterate keccak256 (seedRounds seedEpoch) (List.replicate 32 0)

def kItemsPerLine : Nat := 4

/-- The table that an algorithm is sized for. -/
structure Table (f : Fork) where
  epochs : Epochs
  lines : Nat
  epochs_eq : epochs = epochsFor f epochs.seed
  lines_eq : lines = dagItems epochs.full/kItemsPerLine

namespace Table
variable {f : Fork}

def sized (f : Fork) (seedEpoch : UInt32) : Table f :=
  ⟨epochsFor f seedEpoch,dagItems (epochsFor f seedEpoch).full/kItemsPerLine,rfl,rfl⟩

def retarget (t : Table f) (height : UInt32) : Bool × Table f :=
  let epochs := epochsOf f height.toNat
  if epochs.seed = t.epochs.seed then (false,t)
  else (true,Table.sized f epochs.seed)

theorem retarget_epochs (t : Table f) (height : UInt32) :
    (t.retarget height).2.epochs = epochsOf f height.toNat := by
  unfold retarget
  simp only
  split
  · next h =>
    rw [t.epochs_eq,← h]
    rfl
  · rfl

theorem retarget_lines (t : Table f) (height : UInt32) :
    (t.retarget height).2.lines = dagItems (epochsOf f height.toNat).full/kItemsPerLine := by
  rw [(t.retarget height).2.lines_eq,retarget_epochs]

end Table

/-! ### The epochs of a height, in numbers without a width -/

variable {f : Fork} {v e : Nat}

def exactSeed (f : Fork) (v : Nat) : Nat := v/f.epochLength.toNat

def exactLight (f : Fork) (v : Nat) : Nat :=
  let seed := exactSeed f v
  if f.dagchangeEpoch ≠ 0 ∧ f.dagchangeEpoch.toNat ≤ seed then seed*f.dagEpochMul.toNat else seed

def exactFull (f : Fork) (v : Nat) : Nat := exactLight f v+f.dagFullOff.toNat

def exactItems (init growth epoch : Nat) : Nat := Nat.findGreatest Nat.Prime (init+growth*epoch)

def exactLines (f : Fork) (v : Nat) : Nat :=
  2*exactItems 8388608 65536 (exactFull f v)/kItemsPerLine

theorem exactLight_bounds (hm : 0 < f.dagEpochMul.toNat) :
    exactSeed f v ≤ exactLight f v ∧ exactLight f v ≤ exactSeed f v*f.dagEpochMul.toNat := by
  have hself : exactSeed f v ≤ exactSeed f v*f.dagEpochMul.toNat := Nat.le_mul_of_pos_right _ hm
  unfold exactLight
  simp only
  split
  · exact ⟨hself,Nat.le_refl _⟩
  · exact ⟨Nat.le_refl _,hself⟩

structure Fork.Bounded (f : Fork) : Prop where
  length : 0 < f.epochLength.toNat
  period : 0 < f.periodLength.toNat
  mul : 0 < f.dagEpochMul.toNat
  full : 4294967295/f.epochLength.toNat*f.dagEpochMul.toNat+f.dagFullOff.toNat < 2147483648
  short : f.epochLength.toNat*32640 ≤ 4294967296

theorem forks_bounded (hf : f ∈ forks) : f.Bounded := by
  simp only [forks,List.mem_cons,List.not_mem_nil,or_false] at hf
  rcases hf with rfl | rfl | rfl | rfl | rfl <;>
    exact ⟨by decide,by decide,by decide,by decide,by decide⟩

theorem exactFull_lt (hf : f.Bounded) (hv : v < 4294967296) : exactFull f v < 2147483648 := by
  have hlight := (exactLight_bounds (v := v) hf.mul).2
  have hseed : exactSeed f v ≤ 4294967295/f.epochLength.toNat :=
    Nat.div_le_div_right (by omega)
  have hmul := Nat.mul_le_mul_right f.dagEpochMul.toNat hseed
  have hfull := hf.full
  unfold exactFull
  omega

theorem epochsOf_exact (hf : f.Bounded) (hv : v < 4294967296) :
    (epochsOf f v).seed.toNat = exactSeed f v ∧ (epochsOf f v).light.toNat = exactLight f v ∧
      (epochsOf f v).full.toNat = exactFull f v := by
  have hfull := exactFull_lt hf hv
  have hlight := exactLight_bounds (v := v) hf.mul
  have hsum : exactFull f v = exactLight f v+f.dagFullOff.toNat := rfl
  have hseed : (UInt32.ofNat (v/f.epochLength.toNat)).toNat = exactSeed f v := by
    rw [UInt32.toNat_ofNat',exactSeed]
    have hs : v/f.epochLength.toNat = exactSeed f v := rfl
    omega
  have hscaled : (epochsOf f v).light.toNat = exactLight f v := by
    unfold epochsOf epochsFor exactLight
    simp only [UInt32.le_iff_toNat_le,hseed]
    split
    · next h =>
      have hl : exactLight f v = exactSeed f v*f.dagEpochMul.toNat := by
        unfold exactLight
        simp only
        rw [if_pos h]
      rw [UInt32.toNat_mul,hseed,Nat.mod_eq_of_lt (by omega)]
    · exact hseed
  refine ⟨hseed,hscaled,?_⟩
  have hadd : (epochsOf f v).full = (epochsOf f v).light+f.dagFullOff := rfl
  rw [hadd,UInt32.toNat_add,hscaled,Nat.mod_eq_of_lt (by omega)]
  rfl

theorem asInt_small {epoch : UInt32} (h : epoch.toNat < 2147483648) : asInt epoch = epoch.toNat := by
  rw [asInt,toInt32,Int.bmod_def]
  omega

theorem numItems_exact (init growth : Nat) (h : init+growth*e < 2147483648) :
    numItems init growth e = exactItems init growth e := by
  have hprod : toInt32 ((e : Int)*growth) = ((growth*e : Nat) : Int) := by
    rw [toInt32,Int.bmod_def,Int.natCast_mul,Int.mul_comm (e : Int)]
    rw [← Int.natCast_mul]
    omega
  have hsum : toInt32 ((init : Int)+((growth*e : Nat) : Int)) = ((init+growth*e : Nat) : Int) := by
    rw [toInt32,Int.bmod_def]
    omega
  rw [numItems,hprod,hsum,findLargestPrime_eq]
  rfl

theorem prime_intMax : Nat.Prime 2147483647 :=
  lucas_lehmer_sufficiency 31 (by simp) (by norm_num)

/-- Where the dataset's size no longer fits an `int`, another is computed. -/
theorem dagItems_wrapped {full : UInt32} (hlow : 32640 ≤ full.toNat)
    (hhigh : full.toNat < 2147483648) :
    dagItems full/kItemsPerLine < 2*exactItems 8388608 65536 full.toNat/kItemsPerLine := by
  have hgreat : 2147483647 ≤ exactItems 8388608 65536 full.toNat :=
    Nat.le_findGreatest (by omega) prime_intMax
  have hcode : calculateFullDatasetNumItems (asInt full) ≤ 2147418112 := by
    rw [calculateFullDatasetNumItems,asInt_small hhigh,numItems,findLargestPrime_eq]
    refine Nat.le_trans (Nat.findGreatest_le _) ?_
    rw [toInt32,toInt32,Int.bmod_def,Int.bmod_def]
    omega
  unfold dagItems kItemsPerLine
  omega

end VkMiner.Progpow
