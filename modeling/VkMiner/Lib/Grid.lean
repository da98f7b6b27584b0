import Mathlib.Data.List.Range
set_option autoImplicit false

/-! An interval cut into blocks of one length, and walked block by block. -/

namespace Grid
open List

variable {α : Type} {m n k c : Nat}

theorem range_mul_succ (m n : Nat) : range ((m + 1) * n) = range (m * n) ++ range' (m * n) n := by
  rw [Nat.succ_mul,range_add,range'_eq_map_range]

theorem flatMap_blocks (m n : Nat) (f : Nat → List α) :
    ((range m).flatMap fun i => (range n).flatMap fun j => f (i * n + j)) =
      (range (m * n)).flatMap f := by
  induction m with
  | zero => simp
  | succ m ih =>
    rw [range_succ,flatMap_append,ih,range_mul_succ,flatMap_append,range'_eq_map_range]
    simp [flatMap_map]

theorem range_blocks (m n : Nat) : ((range m).flatMap fun i => range' (i * n) n) = range (m * n) := by
  have h := flatMap_blocks m n fun i => [i]
  simp only [flatMap_singleton'] at h
  rw [← h]
  refine congrArg (flatMap · (range m)) (funext fun i => ?_)
  rw [range'_eq_map_range,map_eq_flatMap]

theorem flatMap_firsts (m : Nat) (hn : 0 < n) (f : Nat → List α) :
    ((range (m * n)).flatMap fun j => if j % n = 0 then f (j / n) else []) =
      (range m).flatMap f := by
  rw [← flatMap_blocks]
  refine congrArg (flatMap · (range m)) (funext fun i => ?_)
  obtain ⟨n,rfl⟩ := Nat.exists_eq_add_of_le' hn
  rw [range_succ_eq_map,flatMap_cons,flatMap_map]
  have hz : ((range n).flatMap fun j =>
      if (i * (n + 1) + j.succ) % (n + 1) = 0 then f ((i * (n + 1) + j.succ) / (n + 1)) else []) = [] := by
    refine flatMap_eq_nil_iff.mpr fun j hj => if_neg ?_
    have hj := mem_range.mp hj
    rw [Nat.mul_comm,Nat.mul_add_mod,Nat.mod_eq_of_lt (Nat.succ_lt_succ hj)]
    exact Nat.succ_ne_zero j
  rw [hz,append_nil,Nat.add_zero,Nat.mul_mod_left,if_pos rfl,Nat.mul_div_cancel _ hn]

theorem filter_flatMap (p : Nat → Bool) (l : List Nat) (f : Nat → List Nat) :
    (l.flatMap fun i => (f i).filter p) = (l.flatMap f).filter p := by
  induction l with
  | nil => rfl
  | cons i l ih => rw [flatMap_cons,flatMap_cons,filter_append,ih]

theorem filter_range (h : c ≤ n) : (range n).filter (· < c) = range c := by
  obtain ⟨d,rfl⟩ := Nat.exists_eq_add_of_le h
  rw [range_add,filter_append,filter_eq_self.mpr,filter_eq_nil_iff.mpr,append_nil]
  · intro x hx
    obtain ⟨j,-,rfl⟩ := mem_map.mp hx
    simp
  · intro x hx
    simpa using mem_range.mp hx

end Grid
