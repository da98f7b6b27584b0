import Mathlib.Data.Int.Log
import Mathlib.Data.Rat.Floor
import Mathlib.Tactic.FieldSimp
import Mathlib.Tactic.Linarith
import Mathlib.Tactic.NormNum
set_option autoImplicit false

/-! Arithmetic whose results are rounded, by what a result can be off, and the rounding of
binary64 where no exponent is out of its range. -/

namespace Rounding

/-- A result is off by at most `unit` of what it stands for. -/
structure Rounder (F : Type*) [Field F] [LinearOrder F] where
  round : F → F
  unit : F
  unit_nonneg : 0 ≤ unit
  unit_lt : unit < 1
  close : ∀ x, |round x-x| ≤ unit*|x|

namespace Rounder

variable {F : Type*} [Field F] [LinearOrder F] [IsStrictOrderedRing F] (R : Rounder F) {x b : F}

def exact : Rounder F where
  round x := x
  unit := 0
  unit_nonneg := le_refl 0
  unit_lt := one_pos
  close x := by simp

theorem le_round (h : 0 ≤ x) : x*(1-R.unit) ≤ R.round x := by
  have hlow := (abs_le.mp (R.close x)).1
  rw [abs_of_nonneg h] at hlow
  linarith

theorem round_nonneg (h : 0 ≤ x) : 0 ≤ R.round x :=
  (mul_nonneg h (sub_nonneg.mpr R.unit_lt.le)).trans (R.le_round h)

theorem mul_le_of_round_le (hb : 0 ≤ b) (h : R.round x ≤ b) : x*(1-R.unit) ≤ b := by
  obtain hx | hx := le_total 0 x
  · exact (R.le_round hx).trans h
  · exact (mul_nonpos_of_nonpos_of_nonneg hx (sub_nonneg.mpr R.unit_lt.le)).trans hb

end Rounder

def nearest (x : ℚ) : ℤ :=
  if 2*Int.fract x < 1 ∨ 2*Int.fract x = 1 ∧ ⌊x⌋%2 = 0 then ⌊x⌋ else ⌊x⌋+1

theorem nearest_close (x : ℚ) : |(nearest x : ℚ)-x| ≤ 1/2 := by
  have hsplit := Int.floor_add_fract x
  have hlt := Int.fract_lt_one x
  have hnonneg := Int.fract_nonneg x
  rw [nearest,abs_le]
  split
  · rename_i h
    have hhalf : 2*Int.fract x ≤ 1 := h.elim le_of_lt fun h => h.1.le
    constructor <;> linarith
  · rename_i h
    rw [not_or] at h
    push_cast
    constructor <;> linarith

theorem nearest_natCast (n : ℕ) : nearest n = n := by simp [nearest]

theorem nearest_div (n : ℕ) {d : ℕ} (hd : 0 < d) : nearest ((n : ℚ)/d) =
    if 2*(n%d) < d ∨ 2*(n%d) = d ∧ n/d%2 = 0 then ((n/d : ℕ) : ℤ) else ((n/d+1 : ℕ) : ℤ) := by
  have hpos : (0 : ℚ) < d := Nat.cast_pos.mpr hd
  have hfloor : ⌊(n : ℚ)/d⌋ = ((n/d : ℕ) : ℤ) := by
    simpa using Rat.floor_intCast_div_natCast n d
  have hfract : 2*Int.fract ((n : ℚ)/d) = ((2*(n%d) : ℕ) : ℚ)/d := by
    rw [Int.fract_div_natCast_eq_div_natCast_mod]
    push_cast
    ring
  have hlt : 2*Int.fract ((n : ℚ)/d) < 1 ↔ 2*(n%d) < d := by
    rw [hfract,div_lt_one hpos,Nat.cast_lt]
  have heq : 2*Int.fract ((n : ℚ)/d) = 1 ↔ 2*(n%d) = d := by
    rw [hfract,div_eq_one_iff_eq hpos.ne',Nat.cast_inj]
  have heven : ((n/d : ℕ) : ℤ)%2 = 0 ↔ n/d%2 = 0 := by omega
  simp only [nearest,hlt,heq,hfloor,heven,Nat.cast_add,Nat.cast_one]

def place (x : ℚ) : ℚ := 2^(Int.log 2 |x|-52)

theorem place_pos (x : ℚ) : 0 < place x := zpow_pos two_pos _

theorem place_le {x : ℚ} (h : x ≠ 0) : place x ≤ |x|/2^52 := by
  have hlog := Int.zpow_log_le_self (b := 2) Nat.one_lt_two (abs_pos.mpr h)
  rw [place,zpow_sub₀ two_ne_zero]
  exact div_le_div_of_nonneg_right hlog (by positivity)

/-- To 53 significant bits. -/
def binary64 : Rounder ℚ where
  round x := nearest (x/place x)*place x
  unit := 1/2^53
  unit_nonneg := by norm_num
  unit_lt := by norm_num
  close x := by
    obtain rfl | hx := eq_or_ne x 0
    · simp [nearest]
    have hpos := place_pos x
    have hnear := nearest_close (x/place x)
    calc |nearest (x/place x)*place x-x|
        = |(nearest (x/place x) : ℚ)-x/place x| * place x := by
          rw [← abs_of_pos hpos,← abs_mul,abs_of_pos hpos,sub_mul,div_mul_cancel₀ x hpos.ne']
      _ ≤ 1/2*place x := mul_le_mul_of_nonneg_right hnear hpos.le
      _ ≤ 1/2*(|x|/2^52) := mul_le_mul_of_nonneg_left (place_le hx) (by norm_num)
      _ = 1/2^53*|x| := by ring

example : binary64.round (1/50) = 5764607523034235/288230376151711744 := by decide +kernel

def toDouble (n : ℕ) : ℕ :=
  let drop := n.log2+1-53
  let unit := 2^drop
  let q := n/unit
  let rest := n%unit
  if 2*rest < unit ∨ (2*rest = unit ∧ q%2 = 0) then q*unit else (q+1)*unit

theorem toDouble_eq (n : ℕ) : (toDouble n : ℚ) = binary64.round n := by
  change _ = (nearest (n/place n) : ℚ)*place n
  have hlog : Int.log 2 |(n : ℚ)| = n.log2 := by
    rw [Nat.abs_cast,Int.log_natCast,Nat.log2_eq_log_two]
  obtain h | h := Nat.lt_or_ge n.log2 52
  · have hplace : (n : ℚ)/place n = (n*2^(52-n.log2) : ℕ) := by
      rw [place,hlog,← neg_sub,zpow_neg,div_inv_eq_mul]
      have : (52 : ℤ)-n.log2 = (52-n.log2 : ℕ) := by omega
      rw [this,zpow_natCast]
      push_cast
      rfl
    rw [hplace,nearest_natCast,Int.cast_natCast,← hplace,div_mul_cancel₀ _ (place_pos _).ne']
    have hdrop : n.log2+1-53 = 0 := by omega
    simp [toDouble,hdrop,Nat.mod_one]
  · have hplace : place n = (2^(n.log2+1-53) : ℕ) := by
      have : (n.log2 : ℤ)-52 = (n.log2+1-53 : ℕ) := by omega
      rw [place,hlog,this,zpow_natCast]
      push_cast
      rfl
    rw [hplace,nearest_div n (Nat.two_pow_pos _),toDouble]
    split
    · push_cast
      rfl
    · push_cast
      rfl

theorem toDouble_le (n : ℕ) : 2^53*toDouble n ≤ (2^53+1)*n := by
  have hclose := (abs_le.mp (binary64.close n)).2
  rw [← toDouble_eq,Nat.abs_cast] at hclose
  have hunit : binary64.unit = 1/2^53 := rfl
  rw [hunit] at hclose
  have : ((2^53*toDouble n : ℕ) : ℚ) ≤ ((2^53+1)*n : ℕ) := by
    push_cast
    linarith
  exact_mod_cast this

end Rounding
