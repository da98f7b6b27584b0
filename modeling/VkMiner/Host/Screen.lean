import VkMiner.Sha256d.Host
set_option autoImplicit false

/-! The part of a target that a kernel screens on. -/

namespace VkMiner.Screen
open Loops Sha256d

/-- The target with every word below the kernel's screen replaced by all-ones. -/
def screenedTarget (screenBits : Nat) (target : Words 8) : Words 8 :=
  let kept := screenBits / 32
  upTo 8 (Words.zeros 8) fun i out =>
    out.write i (if 8 - kept ≤ i then target.read i else 0xffffffff)

theorem screenedTarget_read (screenBits : Nat) (target : Words 8) {i : Nat} (hi : i < 8) :
    (screenedTarget screenBits target).read i =
      if 8 - screenBits / 32 ≤ i then target.read i else 0xffffffff :=
  Words.read_fill _ _ (Nat.le_refl 8) hi

theorem fulltest_ones {hash target : Words 8} {i : Nat}
    (h : ∀ j < i, target.read j = 0xffffffff) : fulltest hash target i = true := by
  induction i with
  | zero => rfl
  | succ i ih =>
    have hle : ¬target.read i < hash.read i := by
      rw [h i (Nat.lt_succ_self i),BitVec.not_lt]
      exact BitVec.le_def.mpr (by
        have := (hash.read i).isLt
        rw [show (0xffffffff : Word).toNat = 2^32 - 1 from rfl]
        omega)
    rw [fulltest,if_neg hle,ih fun j hj => h j (by omega)]
    exact ite_self true

theorem fulltest_top (hash target : Words 8) :
    fulltest hash (screenedTarget 64 target) 8 =
      decide (¬target.read 7 < hash.read 7 ∧
        ¬(hash.read 7 = target.read 7 ∧ target.read 6 < hash.read 6)) := by
  have h7 : (screenedTarget 64 target).read 7 = target.read 7 :=
    screenedTarget_read 64 target (by decide)
  have h6 : (screenedTarget 64 target).read 6 = target.read 6 :=
    screenedTarget_read 64 target (by decide)
  have hlow : fulltest hash (screenedTarget 64 target) 6 = true :=
    fulltest_ones fun j hj => by
      rw [screenedTarget_read 64 target (by omega),if_neg (by omega)]
  rw [fulltest,h7,fulltest,h6,hlow]
  by_cases hgt : target.read 7 < hash.read 7
  · simp [hgt]
  · by_cases hlt : hash.read 7 < target.read 7
    · have hne : hash.read 7 ≠ target.read 7 := fun h => by simp [h] at hlt
      simp [hgt,hlt,hne]
    · have heq : hash.read 7 = target.read 7 :=
        BitVec.le_antisymm (BitVec.not_lt.mp hgt) (BitVec.not_lt.mp hlt)
      simp only [heq,true_and]
      by_cases h : target.read 6 < hash.read 6
      · simp [h]
      · simp [h]

/-- What a kernel lets through after these two comparisons. -/
theorem screened_some {α : Type} (hash target : Words 8) (c : α) :
    (if target.read 7 < hash.read 7 then none
      else if hash.read 7 = target.read 7 ∧ target.read 6 < hash.read 6 then none
      else some c) = if fulltest hash (screenedTarget 64 target) 8 then some c else none := by
  simp only [fulltest_top,decide_eq_true_eq]
  by_cases hgt : target.read 7 < hash.read 7
  · rw [if_pos hgt,if_neg fun h => h.1 hgt]
  · rw [if_neg hgt]
    by_cases htop : hash.read 7 = target.read 7 ∧ target.read 6 < hash.read 6
    · rw [if_pos htop,if_neg fun h => h.2 htop]
    · rw [if_neg htop,if_pos ⟨hgt,htop⟩]

/-- What a kernel lets through that compares the top word before the whole. -/
theorem fulltest_some {α : Type} (hash target : Words 8) (c : α) :
    (if target.read 7 < hash.read 7 then none
      else if fulltest hash target 8 then some c else none) =
      if fulltest hash target 8 then some c else none := by
  by_cases hgt : target.read 7 < hash.read 7
  · rw [if_pos hgt,fulltest,if_pos hgt]
    rfl
  · rw [if_neg hgt]

theorem counted_some {α : Type} (index count : Word) (p : Prop) [Decidable p] (c : α) :
    (if count ≤ index then none else if p then some c else none) =
      if index < count ∧ p then some c else none := by
  by_cases hindex : index < count
  · rw [if_neg (BitVec.not_le.mpr hindex)]
    simp only [hindex,true_and]
  · rw [if_pos (BitVec.not_lt.mp hindex),if_neg fun h => hindex h.1]

end VkMiner.Screen
