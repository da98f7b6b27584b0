import Mathlib.Data.List.GetD
import VkMiner.Progpow.Epochs
import VkMiner.Scheduler.Seals
import VkMiner.Stratum.HexFields
set_option autoImplicit false

/-! The height of a ProgPoW notify on its way to the algorithm: the wide number that it is parsed
into, the word of the header, and the program, the table and the seed that come of them. -/

namespace VkMiner.Progpow
open Stratum Scheduler

/-! ### The number on the wire -/

def hexNumber (s : CStr) : Int :=
  let t := s.dropWhile isspace
  let body := skip0x (if t.head? = some 45 ∨ t.head? = some 43 then t.tail else t)
  let n : Nat := (hexDigits (body.takeWhile (fun c => (hexDigit c).isSome))).foldl
    (fun acc d => acc*16+d) 0
  if t.head? = some 45 then -n else n

def numberOf (j : Option Json) : Option Int :=
  match j with
  | some (.integer n) => some n
  | some (.string []) => none
  | some (.string (c :: rest)) =>
    some (hexNumber (if c = 48 ∧ (rest.head? = some 120 ∨ rest.head? = some 88) then rest.tail
      else c :: rest))
  | _ => none

theorem strtoull16_number (s : CStr) (h : 0 ≤ hexNumber s) :
    ((strtoull16 s).1 : Int) = min (hexNumber s) ullongMax := by
  unfold hexNumber at h ⊢
  unfold strtoull16
  simp only at h ⊢
  generalize s.dropWhile isspace = t at h ⊢
  generalize skip0x (if t.head? = some 45 ∨ t.head? = some 43 then t.tail else t) = body at h ⊢
  generalize hd : body.takeWhile (fun c => (hexDigit c).isSome) = digits at h ⊢
  generalize hn : (hexDigits digits).foldl (fun acc d => acc*16+d) 0 = n at h ⊢
  have hmax : ullongMax = 18446744073709551615 := rfl
  cases hempty : digits.isEmpty with
  | true =>
    have hnil : digits = [] := List.isEmpty_iff.mp hempty
    have hzero : n = 0 := by
      rw [← hn,hnil]
      rfl
    subst hzero
    simp only [if_true]
    split <;> omega
  | false =>
    simp only [Bool.false_eq_true,if_false]
    by_cases hneg : t.head? = some 45
    · simp only [hneg,if_true] at h ⊢
      obtain rfl : n = 0 := by omega
      rw [if_neg (by omega),hmax]
      omega
    · simp only [hneg,if_false] at h ⊢
      split <;> omega

theorem parse_number {j : Option Json} {height : Nat} {v : Int}
    (hp : parseUintField j = some height) (hv : numberOf j = some v) (h : 0 ≤ v) :
    (height : Int) = v ∨ (18446744073709551615 ≤ v ∧ height = 18446744073709551615) := by
  have hmax : ullongMax = 18446744073709551615 := rfl
  unfold numberOf at hv
  unfold parseUintField at hp
  split at hv
  · next n =>
    obtain rfl : n = v := Option.some.inj hv
    simp only at hp
    rw [if_neg (by omega)] at hp
    have hn : n.toNat = height := Option.some.inj hp
    omega
  · cases hv
  · next c rest =>
    have hnum := Option.some.inj hv
    simp only at hp
    generalize (if c = 48 ∧ (rest.head? = some 120 ∨ rest.head? = some 88) then rest.tail
      else c :: rest) = text at hp hnum
    split at hp
    · have hn := Option.some.inj hp
      have hread := strtoull16_number _ (hnum ▸ h)
      rw [hn,hnum] at hread
      omega
    · cases hp
  · cases hv

/-! ### The word of the header -/

def seedHashCheck (keccak256 : Bytes → Bytes) (f : Fork) (height : Nat) (seed : Bytes) : Bool :=
  epochSeed keccak256 (epochsOf f height).seed == seed

def heightWord (c : StratumCtx) (jobId : CStr) : UInt32 := (progpowGenWork c jobId).data.getD 8 0

theorem heightWord_eq (c : StratumCtx) (jobId : CStr) : heightWord c jobId = c.blockHeight := by
  have hl := root_words c.job.headerHash
  unfold heightWord progpowGenWork
  simp only
  rw [List.getD_append_right _ _ _ _ (by omega),hl]
  rfl

/-- The program, the table and the seed hash of exactly the height `v`. -/
structure Follows (f : Fork) (v : Int) (height : Nat) (word : UInt32) (t : Table f) : Prop where
  period : (periodOf f word.toNat : Int) = v/f.periodLength.toNat
  seed : (t.epochs.seed.toNat : Int) = v/f.epochLength.toNat
  cache : (lightCacheItems t.epochs.light).toNat =
    exactItems 262144 2048 (exactLight f v.toNat)
  table : t.lines = exactLines f v.toNat
  compared : ∀ keccak256 seed,seedHashCheck keccak256 f height seed =
    (Nat.iterate keccak256 (exactSeed f v.toNat) (List.replicate 32 0) == seed)

/-- Of an accepted notify, the workers follow the height that it says. -/
def HeightKept (f : Fork) (heap : Nat → UInt8) (c : StratumCtx) (params : Option Json)
    (t : Table f) : Prop :=
  ∀ q v, readProgpowNotify params = .ok q → numberOf (jsonArrayGet params 5) = some v →
    (stratumNotify .progpow heap c params).1 = none →
      let word := heightWord (stratumNotify .progpow heap c params).2 q.jobId
      Follows f v q.height word (t.retarget word).2

/-- No height below zero, and no dataset whose size an `int` does not hold. -/
def HeightFits (f : Fork) (c : StratumCtx) (params : Option Json) : Prop :=
  ∀ v, numberOf (jsonArrayGet params 5) = some v → ProgpowShape c params →
    0 ≤ v ∧ exactFull f v.toNat ≤ 32639

variable {f : Fork} {v : Int} {height : Nat} {word : UInt32}

theorem fits_word (hf : f.Bounded) (h : exactFull f v.toNat ≤ 32639) : v.toNat < 4294967296 := by
  by_contra hbig
  have hlight := (exactLight_bounds (v := v.toNat) hf.mul).1
  have hsum : exactFull f v.toNat = exactLight f v.toNat+f.dagFullOff.toNat := rfl
  have hshort := hf.short
  have hseed : 32640 ≤ exactSeed f v.toNat := by
    rw [exactSeed,Nat.le_div_iff_mul_le hf.length,Nat.mul_comm]
    omega
  omega

theorem follows_small (hf : f.Bounded) (h₀ : 0 ≤ v) (hfull : exactFull f v.toNat ≤ 32639)
    (hheight : (height : Int) = v) (hword : word.toNat = v.toNat) (t : Table f) :
    Follows f v height word (t.retarget word).2 := by
  have hv := fits_word hf hfull
  obtain ⟨n,rfl⟩ := Int.eq_ofNat_of_zero_le h₀
  obtain rfl : height = n := Int.ofNat.inj hheight
  rw [Int.toNat_natCast] at hv hfull hword
  obtain ⟨hseed,hlight,hfulleq⟩ := epochsOf_exact hf hv
  have hbounds := exactLight_bounds (v := height) hf.mul
  have hsum : exactFull f height = exactLight f height+f.dagFullOff.toNat := rfl
  have hcache : calculateLightCacheNumItems (exactLight f height) =
      exactItems 262144 2048 (exactLight f height) := numItems_exact 262144 2048 (by omega)
  have hle : exactItems 262144 2048 (exactLight f height) ≤ 262144+2048*exactLight f height :=
    Nat.findGreatest_le _
  refine ⟨?_,?_,?_,?_,fun keccak256 seed => ?_⟩
  · rw [periodOf,hword]
    exact Int.natCast_ediv _ _
  · rw [t.retarget_epochs,hword,hseed]
    exact Int.natCast_ediv _ _
  · rw [t.retarget_epochs,hword,Int.toNat_natCast,lightCacheItems,
      asInt_small (by rw [hlight]; omega),hlight,hcache,UInt32.toNat_ofNat']
    omega
  · have hitems : calculateFullDatasetNumItems (exactFull f height) =
        exactItems 8388608 65536 (exactFull f height) := numItems_exact 8388608 65536 (by omega)
    rw [t.retarget_lines,hword,Int.toNat_natCast,dagItems,asInt_small (by rw [hfulleq]; omega),
      hfulleq,hitems]
    rfl
  · rw [seedHashCheck,epochSeed,seedRounds,asInt_small (by rw [hseed]; omega),hseed]
    rfl

theorem period_wide (hf : f.Bounded)
    (hword : (word.toNat : Int)+4294967296 ≤ v) (hp : f.periodLength.toNat < 4294967296) :
    (periodOf f word.toNat : Int) < v/f.periodLength.toNat := by
  have hpos := hf.period
  have hle : (((word.toNat+f.periodLength.toNat)/f.periodLength.toNat : Nat) : Int) ≤
      v/f.periodLength.toNat := by
    rw [Int.natCast_ediv]
    exact Int.ediv_le_ediv (by omega) (by omega)
  rw [Nat.add_div_right _ hpos] at hle
  unfold periodOf
  omega

theorem height_taken {c : StratumCtx} {params : Option Json} (heap : Nat → UInt8)
    (h : ProgpowShape c params) : ∃ q, readProgpowNotify params = .ok q ∧
      parseUintField (jsonArrayGet params 5) = some q.height ∧
      (stratumNotify .progpow heap c params).2.blockHeight = UInt32.ofNat q.height := by
  have hacc : (stratumNotify .progpow heap c params).1 = none := progpow_accepted_iff.mpr h
  simp only [stratumNotify,if_true,stratumProgpowNotify] at hacc ⊢
  cases hq : readProgpowNotify params with
  | error e => simp [hq] at hacc
  | ok q =>
    refine ⟨q,rfl,?_,rfl⟩
    unfold readProgpowNotify at hq
    simp only at hq
    split at hq
    · split at hq
      · split at hq
        · cases hq
        · next height hh =>
          cases hq
          exact hh
      · cases hq
    · cases hq

/-- The height that a notify says is the one that is followed, exactly when the dataset of that
height can be counted. -/
theorem height_kept_iff (hf : f ∈ forks) (heap : Nat → UInt8) (c : StratumCtx)
    (params : Option Json) (t : Table f) :
    HeightKept f heap c params t ↔ HeightFits f c params := by
  have hb := forks_bounded hf
  constructor
  · intro hk v hv hshape
    have hacc : (stratumNotify .progpow heap c params).1 = none := progpow_accepted_iff.mpr hshape
    obtain ⟨q,hq,hheight,hblock⟩ := height_taken heap hshape
    have hfollows := hk q v hq hv hacc
    simp only [heightWord_eq,hblock] at hfollows
    have hperiod := hfollows.period
    have h₀ : 0 ≤ v := by
      by_contra hneg
      have hn := Int.ediv_neg_of_neg_of_pos (b := f.periodLength.toNat) (by omega : v < 0)
        (by have := hb.period; omega)
      omega
    have hsmall : v < 4294967296 := by
      by_contra hwide
      have hword : ((UInt32.ofNat q.height).toNat : Int)+4294967296 ≤ v := by
        rw [UInt32.toNat_ofNat']
        rcases parse_number hheight hv h₀ with h | ⟨h,-⟩ <;> omega
      have hlt := period_wide hb hword (UInt32.toNat_lt _)
      omega
    refine ⟨h₀,?_⟩
    by_contra hfull
    have hv32 : v.toNat < 4294967296 := by omega
    have hword : (UInt32.ofNat q.height).toNat = v.toNat := by
      rw [UInt32.toNat_ofNat']
      rcases parse_number hheight hv h₀ with h | ⟨h,-⟩ <;> omega
    have htable := hfollows.table
    obtain ⟨-,-,hfulleq⟩ := epochsOf_exact hb hv32
    have hwrapped := @dagItems_wrapped (epochsOf f v.toNat).full (by omega)
      (by rw [hfulleq]; exact exactFull_lt hb hv32)
    rw [t.retarget_lines,hword,exactLines] at htable
    rw [hfulleq] at hwrapped
    omega
  · intro hfit q v hq hv hacc
    have hshape := progpow_accepted_iff.mp hacc
    obtain ⟨h₀,hfull⟩ := hfit v hv hshape
    have hv32 := fits_word hb hfull
    obtain ⟨q',hq',hheight,hblock⟩ := height_taken heap hshape
    obtain rfl : q' = q := Except.ok.inj (hq'.symm.trans hq)
    have hsame : (q'.height : Int) = v := by
      rcases parse_number hheight hv h₀ with h | ⟨h,-⟩ <;> omega
    simp only [heightWord_eq,hblock]
    refine follows_small hb h₀ hfull hsame ?_ t
    rw [UInt32.toNat_ofNat']
    omega

def heightNotify (height : Int) : Option Json :=
  some (.array [.string (ascii "a"),.string (word64 '1'),.string (word64 '2'),
    .string (word64 '3'),.bool true,.integer height,.integer 0])

theorem heightNotify_shape {height : Int} (h : 0 ≤ height) :
    ProgpowShape .zero (heightNotify height) := by
  have htarget : (parseTargetHex (stringAt (heightNotify height) 3)).isSome = true := by rfl
  refine ⟨rfl,rfl,rfl,?_,.inl htarget⟩
  have hfield : jsonArrayGet (heightNotify height) 5 = some (.integer height) := rfl
  rw [hfield,parseUintField,if_neg (by omega)]
  rfl

theorem kawpow_height_kept :
    HeightKept kKawpow (fun _ => 0) .zero (heightNotify 4000000) (Table.sized kKawpow 0) := by
  refine (height_kept_iff (by decide) _ _ _ _).mpr fun v hv _ => ?_
  obtain rfl : (4000000 : Int) = v := Option.some.inj hv
  decide

/-- A height of more than 32 bits is mined as another. -/
theorem wide_height_lost :
    ¬ ∀ f ∈ forks,∀ (heap : Nat → UInt8) (c : StratumCtx) (params : Option Json) (t : Table f),
      HeightKept f heap c params t := by
  intro h
  have hshape : ProgpowShape .zero (heightNotify 5000000000) := heightNotify_shape (by omega)
  have hk := h kKawpow (by decide) (fun _ => 0) .zero (heightNotify 5000000000)
    (Table.sized kKawpow 0)
  obtain ⟨q,hq,hheight,hblock⟩ := height_taken (fun _ => 0) hshape
  have hperiod := (hk q 5000000000 hq rfl (progpow_accepted_iff.mpr hshape)).period
  have hwide : q.height = 5000000000 := (Option.some.inj hheight).symm
  rw [heightWord_eq,hblock,hwide] at hperiod
  exact absurd hperiod (by decide)

end VkMiner.Progpow
