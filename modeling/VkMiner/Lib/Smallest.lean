import Mathlib.Order.Lattice
import Mathlib.Data.List.Nodup
import Mathlib.Data.List.Range
set_option autoImplicit false

/-! The smallest of the first values of a function: where it is taken first, and whether it is
taken only there. -/

structure Smallest (α : Type*) where
  place : Nat
  value : α
  alone : Bool

namespace Smallest

variable {α : Type*} [LinearOrder α] {f : Nat → α} {n : Nat} {s t : Smallest α}

def scan (f : Nat → α) : Nat → Smallest α
  | 0 => ⟨0,f 0,true⟩
  | n+1 =>
    if f (n+1) < (scan f n).value then ⟨n+1,f (n+1),true⟩
    else if f (n+1) = (scan f n).value then { scan f n with alone := false }
    else scan f n

structure Is (f : Nat → α) (n : Nat) (s : Smallest α) : Prop where
  place : s.place ≤ n
  value : f s.place = s.value
  least : ∀ i ≤ n, s.value ≤ f i
  alone : s.alone = true ↔ ∀ i ≤ n, f i = s.value → i = s.place

theorem scan_is (f : Nat → α) (n : Nat) : (scan f n).Is f n := by
  induction n with
  | zero =>
    refine ⟨Nat.le_refl 0,rfl,fun i hi => ?_,fun _ i hi _ => Nat.le_zero.mp hi,fun _ => rfl⟩
    rw [Nat.le_zero.mp hi]
    exact le_refl (f 0)
  | succ n ih =>
    rw [scan]
    split
    · rename_i hlt
      have hbefore : ∀ i ≤ n, f (n+1) < f i := fun i hi => lt_of_lt_of_le hlt (ih.least i hi)
      refine ⟨Nat.le_refl _,rfl,fun i hi => ?_,fun _ i hi he => ?_,fun _ => rfl⟩
      · obtain hi | rfl := Nat.le_succ_iff.mp hi
        · exact (hbefore i hi).le
        · exact le_refl _
      · obtain hi | rfl := Nat.le_succ_iff.mp hi
        · exact absurd he (hbefore i hi).ne'
        · rfl
    · rename_i hnlt
      have hle : (scan f n).value ≤ f (n+1) := not_lt.mp hnlt
      have hleast : ∀ i ≤ n+1, (scan f n).value ≤ f i := by
        intro i hi
        obtain hi | rfl := Nat.le_succ_iff.mp hi
        · exact ih.least i hi
        · exact hle
      split
      · rename_i he
        refine ⟨ih.place.trans (Nat.le_succ n),ih.value,hleast,nofun,fun h => ?_⟩
        have hp : n+1 = (scan f n).place := h (n+1) (Nat.le_refl _) he
        have := ih.place
        omega
      · rename_i hne
        refine ⟨ih.place.trans (Nat.le_succ n),ih.value,hleast,ih.alone.trans ⟨fun h i hi he => ?_,
          fun h i hi he => h i (hi.trans (Nat.le_succ n)) he⟩⟩
        obtain hi | rfl := Nat.le_succ_iff.mp hi
        · exact h i hi he
        · exact absurd he hne

/-- A smallest value that is taken once is, of the values up to `n`, the only one at or below
itself. -/
theorem Is.only (h : s.Is f n) (ha : s.alone = true) {i : Nat} (hi : i ≤ n) :
    f i ≤ s.value ↔ i = s.place := by
  constructor
  · intro hle
    exact h.alone.mp ha i hi (le_antisymm hle (h.least i hi))
  · rintro rfl
    exact h.value.le

theorem Is.of_only (h : s.Is f n) {p : Nat} (hp : p ≤ n)
    (honly : ∀ i ≤ n, f i ≤ f p ↔ i = p) : s.place = p ∧ s.value = f p ∧ s.alone = true := by
  have hplace : s.place = p := by
    refine (honly s.place h.place).mp ?_
    rw [h.value]
    exact h.least p hp
  have hvalue : s.value = f p := by rw [← h.value,hplace]
  refine ⟨hplace,hvalue,h.alone.mpr fun i hi he => ?_⟩
  rw [hplace]
  exact (honly i hi).mp (he.trans hvalue).le

end Smallest

theorem filter_range_eq_singleton {p : Nat → Bool} {n i : Nat} :
    (List.range n).filter p = [i] ↔ i < n ∧ ∀ j < n, p j = true ↔ j = i := by
  constructor
  · intro h
    have hmem : ∀ j, j < n ∧ p j = true ↔ j = i := by
      intro j
      rw [← List.mem_range,← List.mem_filter,h,List.mem_singleton]
    refine ⟨((hmem i).mpr rfl).1,fun j hj => ⟨fun hp => (hmem j).mp ⟨hj,hp⟩,?_⟩⟩
    rintro rfl
    exact ((hmem j).mpr rfl).2
  · rintro ⟨hi,h⟩
    have hnodup : ((List.range n).filter p).Nodup := List.nodup_range.filter p
    refine List.perm_singleton.mp ((List.perm_ext_iff_of_nodup hnodup (List.nodup_singleton i)).mpr
      fun j => ?_)
    rw [List.mem_filter,List.mem_range,List.mem_singleton]
    constructor
    · rintro ⟨hj,hp⟩
      exact (h j hj).mp hp
    · rintro rfl
      exact ⟨hi,(h j hi).mpr rfl⟩
