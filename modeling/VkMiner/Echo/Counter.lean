import VkMiner.Echo.Host
import VkMiner.Echo.Kernel
set_option autoImplicit false

/-! The key of every word is the counter after as many steps. -/

namespace VkMiner.Echo
open Loops Quads
open Sha256d (Word)
open Glsl (echo512Key)

theorem quad_write (a b c d x : Word) :
    (quad a b c d).write 0 x = quad x b c d ∧ (quad a b c d).write 1 x = quad a x c d ∧
      (quad a b c d).write 2 x = quad a b x d ∧ (quad a b c d).write 3 x = quad a b c x :=
  ⟨rfl,rfl,rfl,rfl⟩

theorem counted_quad (a b c d : Word) : counted (quad a b c d) =
    if a + 1 ≠ 0 then quad (a + 1) b c d
    else if b + 1 ≠ 0 then quad (a + 1) (b + 1) c d
    else if c + 1 ≠ 0 then quad (a + 1) (b + 1) (c + 1) d
    else quad (a + 1) (b + 1) (c + 1) (d + 1) := by
  have hread (a b c d : Word) : (quad a b c d).read 0 = a ∧ (quad a b c d).read 1 = b ∧
      (quad a b c d).read 2 = c ∧ (quad a b c d).read 3 = d := ⟨rfl,rfl,rfl,rfl⟩
  simp only [counted,hread,quad_write]

def carriedOn (cnt : Words 4) (a c₁ : Word) : Words 4 :=
  let b := cnt.read 1 + c₁
  let c₂ : Word := if c₁ = 1 ∧ b = 0 then 1 else 0
  let c := cnt.read 2 + c₂
  let c₃ : Word := if c₂ = 1 ∧ c = 0 then 1 else 0
  quad a b c (cnt.read 3 + c₃)

theorem echo512Key_eq (cnt : Words 4) (add : Word) : echo512Key cnt add =
    carriedOn cnt (cnt.read 0 + add) (if cnt.read 0 + add < add then 1 else 0) := by
  refine Words.ext _ _ fun i hi => ?_
  simp only [echo512Key,carriedOn]
  interval_cases i <;>
    simp (disch := decide) only [Words.read_write_self,Words.read_write_ne] <;> rfl

theorem carriedOn_none (cnt : Words 4) (a : Word) :
    carriedOn cnt a 0 = quad a (cnt.read 1) (cnt.read 2) (cnt.read 3) := by
  simp [carriedOn]

theorem carriedOn_one (cnt : Words 4) {a : Word} (ha : a + 1 = 0) :
    counted (quad a (cnt.read 1) (cnt.read 2) (cnt.read 3)) = carriedOn cnt (a + 1) 1 := by
  rw [counted_quad,if_neg (not_not_intro ha),carriedOn]
  by_cases hb : cnt.read 1 + 1 = 0
  · by_cases hc : cnt.read 2 + 1 = 0
    · simp only [hb,hc,ne_eq,not_true_eq_false,and_self,if_true,if_false]
    · simp only [hb,hc,ne_eq,not_true_eq_false,not_false_eq_true,and_self,and_false,if_true,if_false]
      exact congrArg _ (BitVec.add_zero _).symm
  · have hnone : ¬((0 : Word) = 1) := by decide
    simp only [hb,ne_eq,not_false_eq_true,and_false,hnone,false_and,if_true,if_false]
    exact congr (congrArg _ (BitVec.add_zero _).symm) (BitVec.add_zero _).symm

theorem counted_carriedOn (cnt : Words 4) {a : Word} (c₁ : Word) (ha : a + 1 ≠ 0) :
    counted (carriedOn cnt a c₁) = carriedOn cnt (a + 1) c₁ := by
  rw [carriedOn,counted_quad,if_pos ha,carriedOn]

theorem carry_succ (x : Word) {add : Word} (h : add + 1 ≠ 0) :
    x + (add + 1) < add + 1 ↔ x + add + 1 = 0 ∨ x + add < add := by
  bv_omega

theorem carry_over (x : Word) {add : Word} (hx : x + add + 1 = 0) :
    ¬x + add < add := by
  bv_omega

theorem echo512Key_succ (cnt : Words 4) {add : Word} (h : add + 1 ≠ 0) :
    echo512Key cnt (add + 1) = counted (echo512Key cnt add) := by
  rw [echo512Key_eq,echo512Key_eq,← BitVec.add_assoc]
  by_cases hzero : cnt.read 0 + add + 1 = 0
  · have hcarry : cnt.read 0 + add + 1 < add + 1 := by
      rw [BitVec.add_assoc]
      exact (carry_succ _ h).mpr (.inl hzero)
    rw [if_pos hcarry,if_neg (carry_over _ hzero),carriedOn_none,carriedOn_one cnt hzero]
  · have hcarry : cnt.read 0 + add + 1 < add + 1 ↔ cnt.read 0 + add < add := by
      rw [BitVec.add_assoc,carry_succ _ h]
      exact or_iff_right hzero
    rw [counted_carriedOn cnt _ hzero]
    simp only [hcarry]

theorem echo512Key_count (cnt : Words 4) {j : Nat} (hj : j < 2^32) :
    echo512Key cnt (BitVec.ofNat 32 j) = counted^[j] cnt := by
  induction j with
  | zero =>
    rw [echo512Key_eq,if_neg BitVec.not_lt_zero,carriedOn_none,Function.iterate_zero_apply]
    exact (congrArg (quad · _ _ _) (BitVec.add_zero _)).trans (quad_read cnt).symm
  | succ j ih =>
    have hnext : BitVec.ofNat 32 (j + 1) = BitVec.ofNat 32 j + 1 := BitVec.ofNat_add j 1
    rw [hnext,echo512Key_succ cnt (by bv_omega),ih (by omega),Function.iterate_succ_apply']

end VkMiner.Echo
