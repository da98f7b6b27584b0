import Mathlib.LinearAlgebra.Matrix.NonsingularInverse
import Mathlib.LinearAlgebra.Matrix.Rank
set_option autoImplicit false

/-! Row elimination over a field: what its steps keep, and what is left at its end. -/

namespace Elimination
open Matrix

variable {F : Type*} [Field F] {m n : ℕ} {A B : Matrix (Fin m) (Fin n) F} {row col : ℕ}

/-- The columns below `col` are done: each of the rows below `row` has a column in which every
later row is zero, and the rows from `row` on are zero in all of them. -/
structure Reduced (A : Matrix (Fin m) (Fin n) F) (row col : ℕ) : Prop where
  row_le : row ≤ m
  pivots : ∃ pivot : Fin m → Fin n, ∀ i : Fin m, i.val < row →
    A i (pivot i) ≠ 0 ∧ ∀ i' : Fin m, i < i' → A i' (pivot i) = 0
  rest : ∀ i : Fin m, row ≤ i.val → ∀ j : Fin n, j.val < col → A i j = 0

theorem Reduced.start [NeZero n] (A : Matrix (Fin m) (Fin n) F) : Reduced A 0 0 where
  row_le := Nat.zero_le m
  pivots := ⟨fun _ => 0,fun _ hi => absurd hi (Nat.not_lt_zero _)⟩
  rest _ _ _ hj := absurd hj (Nat.not_lt_zero _)

theorem Reduced.skip {c : Fin n} (h : Reduced A row c)
    (hc : ∀ i : Fin m, row ≤ i.val → A i c = 0) : Reduced A row (c + 1) where
  row_le := h.row_le
  pivots := h.pivots
  rest i hi j hj := by
    obtain hj | hj := Nat.lt_succ_iff_lt_or_eq.mp hj
    · exact h.rest i hi j hj
    · rw [Fin.ext hj]
      exact hc i hi

theorem Reduced.swap {k l : Fin m} (h : Reduced A row col) (hk : row ≤ k.val) (hl : row ≤ l.val) :
    Reduced (A.submatrix (Equiv.swap k l) id) row col := by
  have hrest : ∀ i : Fin m, row ≤ i.val → row ≤ (Equiv.swap k l i).val := by
    intro i hi
    by_cases hik : i = k
    · rwa [hik,Equiv.swap_apply_left]
    · by_cases hil : i = l
      · rwa [hil,Equiv.swap_apply_right]
      · rwa [Equiv.swap_apply_of_ne_of_ne hik hil]
  have hdone : ∀ i : Fin m, i.val < row → Equiv.swap k l i = i := fun i hi =>
    Equiv.swap_apply_of_ne_of_ne (fun hik => by omega) (fun hil => by omega)
  obtain ⟨pivot,hp⟩ := h.pivots
  refine ⟨h.row_le,⟨pivot,fun i hi => ?_⟩,fun i hi j hj => h.rest _ (hrest i hi) j hj⟩
  simp only [submatrix_apply,id_eq,hdone i hi]
  refine ⟨(hp i hi).1,fun i' hi' => (hp i hi).2 _ ?_⟩
  by_cases hlow : i'.val < row
  · rwa [hdone i' hlow]
  · have := hrest i' (by omega)
    exact Fin.lt_def.mpr (by omega)

/-- Multiples of row `k` are taken from the rows after it, so that column `c` is zero there. -/
theorem Reduced.clear {k : Fin m} {c : Fin n} {f : Fin m → F} (h : Reduced A k c)
    (hpivot : A k c ≠ 0) (hbefore : ∀ i ≤ k, B i = A i)
    (hafter : ∀ i, k < i → B i = A i - f i • A k) (hc : ∀ i, k < i → B i c = 0) :
    Reduced B (k + 1) (c + 1) := by
  obtain ⟨pivot,hp⟩ := h.pivots
  have hzero : ∀ i : Fin m, k ≤ i → ∀ j : Fin n, A k j = 0 → A i j = 0 → B i j = 0 := by
    intro i hi j hk hij
    obtain hi | hi := hi.eq_or_lt
    · rw [← hi,hbefore k le_rfl,hk]
    · rw [hafter i hi,Pi.sub_apply,Pi.smul_apply,hij,hk,smul_zero,sub_zero]
  refine ⟨k.isLt,⟨Function.update pivot k c,fun i hi => ?_⟩,fun i hi j hj => ?_⟩
  · obtain rfl | hne := eq_or_ne i k
    · rw [Function.update_self,hbefore i le_rfl]
      exact ⟨hpivot,fun i' hi' => hc i' hi'⟩
    · have hik : i.val < k.val := by
        have := fun e => hne (Fin.ext e)
        omega
      rw [Function.update_of_ne hne,hbefore i (Fin.le_def.mpr hik.le)]
      refine ⟨(hp i hik).1,fun i' hi' => ?_⟩
      obtain hle | hlt := le_or_gt i' k
      · rw [hbefore i' hle]
        exact (hp i hik).2 i' hi'
      · exact hzero i' hlt.le _ ((hp i hik).2 k hik) ((hp i hik).2 i' hi')
  · have hki : k < i := Fin.lt_def.mpr hi
    obtain hj | hj := Nat.lt_succ_iff_lt_or_eq.mp hj
    · exact hzero i hki.le j (h.rest k le_rfl j hj) (h.rest i (Nat.le_of_succ_le hi) j hj)
    · rw [Fin.ext hj]
      exact hc i hki

theorem rank_swap (A : Matrix (Fin m) (Fin n) F) (k l : Fin m) :
    (A.submatrix (Equiv.swap k l) id).rank = A.rank :=
  rank_submatrix A (Equiv.swap k l) (Equiv.refl (Fin n))

/-- Taking multiples of a row from the rows after it is a product with a triangular matrix, so
that the rank stays. -/
theorem rank_clear {k : Fin m} {f : Fin m → F} (hbefore : ∀ i ≤ k, B i = A i)
    (hafter : ∀ i, k < i → B i = A i - f i • A k) : B.rank = A.rank := by
  let g : Fin m → F := fun i => if k < i then - f i else 0
  obtain ⟨P,hP⟩ : ∃ P : Matrix (Fin m) (Fin m) F, P = 1 + vecMulVec g (Pi.single k 1) := ⟨_,rfl⟩
  have hB : B = P * A := by
    rw [hP,Matrix.add_mul,Matrix.one_mul,vecMulVec_mul]
    ext i j
    rw [Matrix.add_apply,vecMulVec_apply,single_one_vecMul]
    obtain hi | hi := le_or_gt i k
    · simp only [hbefore i hi,g,if_neg hi.not_gt,zero_mul,add_zero]
    · simp only [hafter i hi,g,if_pos hi,Pi.sub_apply,Pi.smul_apply,smul_eq_mul,
        Matrix.row,neg_mul]
      ring
  have hlow : P.IsLowerTriangular := by
    intro i j hij
    have hij : i < j := hij
    rw [hP,Matrix.add_apply,one_apply_ne hij.ne,vecMulVec_apply,zero_add]
    by_cases hj : j = k
    · simp only [g,if_neg (hj ▸ hij).not_gt,zero_mul]
    · rw [Pi.single_eq_of_ne hj,mul_zero]
  have hdiag : ∀ i, P.diag i ≠ 0 := by
    intro i
    rw [diag_apply,hP,Matrix.add_apply,one_apply_eq,vecMulVec_apply]
    by_cases hi : i = k
    · simp [g,hi]
    · simp [Pi.single_eq_of_ne hi]
  rw [hB,rank_mul_eq_right_of_isLowerTriangular P A hlow hdiag]

/-- Once every column is done, or every row has a pivot, the pivots are as many as the rank. -/
theorem Reduced.rank_eq (h : Reduced A row col) (hend : n ≤ col ∨ m ≤ row) : A.rank = row := by
  obtain ⟨pivot,hp⟩ := h.pivots
  have hlt : ∀ i : Fin row, i.val < m := fun i => i.isLt.trans_le h.row_le
  refine le_antisymm ?_ ?_
  · have hsupport : Function.support A.row ⊆
        ((Finset.univ.map (Fin.castLEEmb h.row_le) : Finset (Fin m)) : Set (Fin m)) := by
      intro i hi
      have hrow : i.val < row := by
        by_contra hge
        refine hi (funext fun j => h.rest i (not_lt.mp hge) j ?_)
        omega
      simp only [Finset.coe_map,Finset.coe_univ,Set.image_univ,Set.mem_range]
      exact ⟨⟨i,hrow⟩,rfl⟩
    have hcard := rank_le_card_of_support_subset A _ hsupport
    rwa [Finset.card_map,Finset.card_univ,Fintype.card_fin] at hcard
  · let S := A.submatrix (fun i : Fin row => ⟨i,hlt i⟩) (fun i : Fin row => pivot ⟨i,hlt i⟩)
    have htri : S.IsUpperTriangular := fun i j hij => (hp ⟨j,hlt j⟩ j.isLt).2 ⟨i,hlt i⟩ hij
    have hdet : S.det ≠ 0 := by
      rw [det_of_isUpperTriangular htri,Finset.prod_ne_zero_iff]
      exact fun i _ => (hp ⟨i,hlt i⟩ i.isLt).1
    calc row = S.rank := by rw [rank_of_det_ne_zero hdet,Fintype.card_fin]
      _ ≤ A.rank := rank_submatrix_le A _ _

theorem rank_eq_iff_det (A : Matrix (Fin m) (Fin m) F) : A.rank = m ↔ A.det ≠ 0 := by
  constructor
  · intro h
    have hli : LinearIndependent F A.row := by
      rw [linearIndependent_iff_card_eq_finrank_span,Set.finrank,← rank_eq_finrank_span_row,h,
        Fintype.card_fin]
    exact ((isUnit_iff_isUnit_det A).mp (linearIndependent_rows_iff_isUnit.mp hli)).ne_zero
  · intro h
    rw [rank_of_det_ne_zero h,Fintype.card_fin]

end Elimination
