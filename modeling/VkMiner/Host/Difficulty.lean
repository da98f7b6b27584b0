import Mathlib.Algebra.Order.Field.Rat
import Mathlib.Algebra.GroupWithZero.Basic
import Mathlib.Tactic.IntervalCases
import Mathlib.Tactic.NormNum
import Mathlib.Tactic.Ring
import VkMiner.Lib.Loops
set_option autoImplicit false

/-! The difficulty that a compact target stands for, over exact rationals. -/

namespace VkMiner.Host.Difficulty
open Loops

abbrev Word := BitVec 32

def bswap32 (x : Word) : Word :=
  ((x <<< 24) &&& 0xff000000) ||| ((x <<< 8) &&& 0x00ff0000) ||| ((x >>> 8) &&& 0x0000ff00) |||
    ((x >>> 24) &&& 0x000000ff)

/-- The 128-bit operand of either shift, moved `bytes` bytes. -/
def moved (x : BitVec 128) (bytes : Int) : BitVec 128 := x <<< (bytes * 8).toNat

/-- `nbits_to_diff` of `util.c`, less its log line. -/
def nbitsToDiff (nbits : Word) : ℚ :=
  let shift := nbits &&& 0xff
  let bits := bswap32 nbits &&& 0x00ffffff
  let shiftOff : Int := shift.toNat - 29
  if -13 ≤ shiftOff ∧ shiftOff ≤ 12 then
    if shiftOff = 0 then 0xffff / (bits.toNat : ℚ)
    else if shiftOff < 0 then ((moved 0xffff (-shiftOff)).toNat : ℚ) / (bits.toNat : ℚ)
    else 0xffff / ((moved (bits.setWidth 128) shiftOff).toNat : ℚ)
  else
    let diff := 0
    let diff := upTo (29 - shift.toNat) diff fun _ diff => diff * 256
    upTo (shift.toNat - 29) diff fun _ diff => diff / 256

/-- What is shifted on the fast path keeps all its bits. -/
def ShiftsKeep (nbits : Word) : Prop :=
  let shiftOff : Int := (nbits &&& 0xff).toNat - 29
  let bits := (bswap32 nbits &&& 0x00ffffff).setWidth 128
  shiftOff ≤ 12 → -13 ≤ shiftOff →
    (shiftOff < 0 → (moved 0xffff (-shiftOff)).toNat = 0xffff * 256 ^ (-shiftOff).toNat) ∧
      (0 < shiftOff → (moved bits shiftOff).toNat = bits.toNat * 256 ^ shiftOff.toNat)

/-- A compact target as a header holds it: the exponent is the word's low byte. -/
def compact (exponent : BitVec 8) (mantissa : BitVec 24) : Word := bswap32 (exponent ++ mantissa)

/-- The difficulty of `mantissa * 256 ^ (exponent - 3)`, where `0xffff * 256 ^ 26` has one. -/
def difficulty (exponent : BitVec 8) (mantissa : BitVec 24) : ℚ :=
  0xffff / (mantissa.toNat * 256 ^ ((exponent.toNat : ℤ) - 29))

section Fields

variable (e : BitVec 8) (m : BitVec 24)

theorem bswap32_bswap32 (x : Word) : bswap32 (bswap32 x) = x := by
  refine BitVec.eq_of_getLsbD_eq fun i hi => ?_
  simp only [bswap32,BitVec.getLsbD_or,BitVec.getLsbD_and,BitVec.getLsbD_shiftLeft,
    BitVec.getLsbD_ushiftRight]
  interval_cases i <;> simp

theorem exponent_compact : compact e m &&& 0xff = e.setWidth 32 := by
  refine BitVec.eq_of_getLsbD_eq fun i hi => ?_
  simp only [compact,bswap32,BitVec.getLsbD_or,BitVec.getLsbD_and,BitVec.getLsbD_shiftLeft,
    BitVec.getLsbD_ushiftRight,BitVec.getLsbD_append,BitVec.getLsbD_setWidth]
  interval_cases i <;> simp

theorem mantissa_compact : bswap32 (compact e m) &&& 0x00ffffff = m.setWidth 32 := by
  rw [compact,bswap32_bswap32]
  refine BitVec.eq_of_getLsbD_eq fun i hi => ?_
  simp only [BitVec.getLsbD_and,BitVec.getLsbD_append,BitVec.getLsbD_setWidth]
  interval_cases i <;> simp

theorem compact_surjective (nbits : Word) : ∃ e m,compact e m = nbits := by
  refine ⟨(bswap32 nbits).extractLsb' 24 8,(bswap32 nbits).extractLsb' 0 24,?_⟩
  have happend : (bswap32 nbits).extractLsb' 24 8 ++ (bswap32 nbits).extractLsb' 0 24 =
      bswap32 nbits := by
    refine BitVec.eq_of_getLsbD_eq fun i hi => ?_
    rw [BitVec.getLsbD_append]
    by_cases h : i < 24
    · simp [h]
    · simp [h,show i - 24 < 8 from by omega,Nat.add_sub_cancel' (Nat.not_lt.mp h)]
  rw [compact,happend,bswap32_bswap32]

theorem moved_toNat (x : BitVec 128) {bytes : Int} {k : Nat} (hk : bytes.toNat = k)
    (hx : x.toNat * 256 ^ k < 2 ^ 128) : (moved x bytes).toNat = x.toNat * 256 ^ bytes.toNat := by
  have hbits : (bytes * 8).toNat = 8 * k := by omega
  have hpow : 2 ^ (8 * k) = 256 ^ k := Nat.pow_mul 2 8 k
  rw [moved,hbits,hk,BitVec.toNat_shiftLeft,Nat.shiftLeft_eq,hpow,Nat.mod_eq_of_lt hx]

/-- The wider operand and the longer shift both end at bit 120. -/
theorem shifts_keep (nbits : Word) : ShiftsKeep nbits := by
  obtain ⟨e,m,rfl⟩ := compact_surjective nbits
  rw [ShiftsKeep,exponent_compact,mantissa_compact]
  have hbits : ((m.setWidth 32).setWidth 128).toNat < 2 ^ 24 := by
    have hm := m.isLt
    simp only [BitVec.toNat_setWidth]
    omega
  generalize ((e.setWidth 32).toNat : ℤ) - 29 = shiftOff
  generalize (m.setWidth 32).setWidth 128 = bits at hbits ⊢
  intro hhi hlo
  refine ⟨fun h => moved_toNat _ rfl ?_,fun h => moved_toNat _ rfl ?_⟩
  · have hpow : 256 ^ (-shiftOff).toNat ≤ 256 ^ 13 := Nat.pow_le_pow_right (by decide) (by omega)
    have h16 : (0xffff : BitVec 128).toNat = 0xffff := rfl
    rw [h16]
    omega
  · have hpow : 256 ^ shiftOff.toNat ≤ 256 ^ 12 := Nat.pow_le_pow_right (by decide) (by omega)
    calc bits.toNat * 256 ^ shiftOff.toNat ≤ 2 ^ 24 * 256 ^ 12 := Nat.mul_le_mul (by omega) hpow
      _ < 2 ^ 128 := by decide

theorem slow_zero (n k : Nat) :
    upTo k (upTo n (0 : ℚ) fun _ diff => diff * 256) (fun _ diff => diff / 256) = 0 := by
  have hup : upTo n (0 : ℚ) (fun _ diff => diff * 256) = 0 :=
    upTo_invariant (P := fun _ diff => diff = 0) rfl fun _ _ diff h => by rw [h,zero_mul]
  rw [hup]
  exact upTo_invariant (P := fun _ diff => diff = 0) rfl fun _ _ diff h => by rw [h,zero_div]

theorem nbits_to_diff_eq : nbitsToDiff (compact e m) =
    if 16 ≤ e.toNat ∧ e.toNat ≤ 41 then difficulty e m else 0 := by
  have hkeep := shifts_keep (compact e m)
  rw [ShiftsKeep,exponent_compact,mantissa_compact] at hkeep
  rw [nbitsToDiff,exponent_compact,mantissa_compact,difficulty]
  have he : (e.setWidth 32).toNat = e.toNat := by
    rw [BitVec.toNat_setWidth]
    exact Nat.mod_eq_of_lt (Nat.lt_trans e.isLt (by decide))
  have hm : (m.setWidth 32).toNat = m.toNat := by
    rw [BitVec.toNat_setWidth]
    exact Nat.mod_eq_of_lt (Nat.lt_trans m.isLt (by decide))
  have hwide : ((m.setWidth 32).setWidth 128).toNat = m.toNat := by
    rw [BitVec.toNat_setWidth,hm]
    exact Nat.mod_eq_of_lt (Nat.lt_trans m.isLt (by decide))
  simp only [he,hm,hwide] at hkeep ⊢
  by_cases hfast : 16 ≤ e.toNat ∧ e.toNat ≤ 41
  · rw [if_pos (by omega),if_pos hfast]
    obtain ⟨hleft,hright⟩ := hkeep (by omega) (by omega)
    obtain hlt | heq | hgt := lt_trichotomy e.toNat 29
    · obtain ⟨k,hk⟩ : ∃ k : Nat,(e.toNat : ℤ) - 29 = -(k : ℤ) := ⟨29 - e.toNat,by omega⟩
      rw [if_neg (by omega),if_pos (by omega),hleft (by omega),hk,neg_neg,Int.toNat_natCast,
        zpow_neg,zpow_natCast]
      push_cast
      rw [← div_eq_mul_inv,div_div_eq_mul_div]
    · rw [heq]
      simp
    · obtain ⟨k,hk⟩ : ∃ k : Nat,(e.toNat : ℤ) - 29 = (k : ℤ) := ⟨e.toNat - 29,by omega⟩
      rw [if_neg (by omega),if_neg (by omega),hright (by omega),hk,Int.toNat_natCast,zpow_natCast]
      push_cast
      rfl
  · rw [if_neg (by omega),if_neg hfast]
    exact slow_zero _ _

theorem difficulty_pos (hm : m ≠ 0) : 0 < difficulty e m := by
  have hm : 0 < m.toNat := Nat.pos_of_ne_zero fun h => hm (BitVec.toNat_inj.mp h)
  have hm : (0 : ℚ) < m.toNat := Nat.cast_pos.mpr hm
  exact div_pos (by norm_num) (mul_pos hm (zpow_pos (by norm_num) _))

/-- On the fast path, and on it alone, the difficulty is what the compact target stands for. -/
theorem nbits_to_diff_iff (hm : m ≠ 0) : ShiftsKeep (compact e m) ∧
    (nbitsToDiff (compact e m) = difficulty e m ↔ 16 ≤ e.toNat ∧ e.toNat ≤ 41) := by
  refine ⟨shifts_keep (compact e m),?_⟩
  rw [nbits_to_diff_eq]
  by_cases hfast : 16 ≤ e.toNat ∧ e.toNat ≤ 41
  · rw [if_pos hfast]
    exact iff_of_true rfl hfast
  · rw [if_neg hfast]
    exact iff_of_false (difficulty_pos e m hm).ne hfast

theorem nbits_to_diff_iff_bitcoin : ShiftsKeep (compact 29 0xffff) ∧
    (nbitsToDiff (compact 29 0xffff) = difficulty 29 0xffff ↔
      16 ≤ (29 : BitVec 8).toNat ∧ (29 : BitVec 8).toNat ≤ 41) :=
  nbits_to_diff_iff 29 0xffff (by decide)

theorem nbits_to_diff_slow : ¬∀ (e : BitVec 8) (m : BitVec 24),m ≠ 0 →
    ShiftsKeep (compact e m) ∧ nbitsToDiff (compact e m) = difficulty e m := by
  intro h
  have hslow : nbitsToDiff (compact 42 1) = 0 := nbits_to_diff_eq 42 1
  exact (difficulty_pos 42 1 (by decide)).ne (hslow.symm.trans (h 42 1 (by decide)).2)

end Fields

end VkMiner.Host.Difficulty
