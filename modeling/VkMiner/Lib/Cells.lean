import Mathlib.Logic.Basic
import VkMiner.Lib.Loops
set_option autoImplicit false

/-! Arrays of any type, read and written by number, and what a map of the cells does to them. -/

/-- An array, whose places beyond its end read as the default. -/
abbrev Cells (α : Type) (n : Nat) := Vector α n

namespace Cells
open Loops

variable {α β : Type} [Inhabited α] [Inhabited β] {n m i j : Nat} {x : α}

def blank (n : Nat) : Cells α n := Vector.replicate n default

def read (v : Cells α n) (i : Nat) : α := v[i]?.getD default

def write (v : Cells α n) (i : Nat) (x : α) : Cells α n := v.setIfInBounds i x

theorem read_of_lt (v : Cells α n) (hi : i < n) : v.read i = v[i] := by simp [read,hi]

theorem read_ofFn (f : Fin n → α) (hi : i < n) : read (Vector.ofFn f) i = f ⟨i,hi⟩ := by
  simp [read,hi]

theorem read_toList (v : Cells α n) (i : Nat) : v.toList.getD i default = v.read i := by
  rw [read,List.getD_eq_getElem?_getD,Vector.getElem?_toList]

theorem read_blank (n i : Nat) : (blank n : Cells α n).read i = default := by
  by_cases hi : i < n
  · simp [blank,read,hi]
  · simp [blank,read,Vector.getElem?_eq_none (Nat.not_lt.mp hi)]

theorem read_write_self (v : Cells α n) (x : α) (hi : i < n) : (v.write i x).read i = x := by
  simp [read,write,hi]

theorem read_write_ne (v : Cells α n) (x : α) (h : i ≠ j) : (v.write i x).read j = v.read j := by
  simp [read,write,h]

theorem ext (u v : Cells α n) (h : ∀ i < n, u.read i = v.read i) : u = v := by
  refine Vector.ext fun i hi => ?_
  have := h i hi
  rwa [read_of_lt u hi,read_of_lt v hi] at this

theorem read_map (φ : α → β) (hφ : φ default = default) (v : Cells α n) (i : Nat) :
    read (v.map φ) i = φ (v.read i) := by
  rw [read,read,Vector.getElem?_map]
  cases v[i]? with
  | none => exact hφ.symm
  | some x => rfl

omit [Inhabited α] [Inhabited β] in
theorem map_write (φ : α → β) (v : Cells α n) (i : Nat) (x : α) :
    (v.write i x).map φ = write (v.map φ) i (φ x) := by
  refine Vector.ext fun j hj => ?_
  simp only [write,Vector.getElem_map,Vector.getElem_setIfInBounds]
  split <;> rfl

theorem map_blank (φ : α → β) (hφ : φ default = default) (n : Nat) :
    (blank n : Cells α n).map φ = blank n := by
  rw [blank,Vector.map_replicate,hφ,blank]

/-- A loop over a run of the array, each pass of which reads nothing that the ones before it
wrote. -/
theorem read_update {f : Nat → Cells α n → α} {g : Nat → α} (v : Cells α n) (first : Nat)
    (hm : first + m ≤ n)
    (h : ∀ i < m, ∀ u : Cells α n, (∀ j, j < first ∨ first + i ≤ j → u.read j = v.read j) →
      f i u = g i) (j : Nat) :
    (upTo m v fun i v => v.write (first + i) (f i v)).read j =
      if first ≤ j ∧ j < first + m then g (j - first) else v.read j := by
  induction m generalizing j with
  | zero => rw [upTo,if_neg (by omega)]
  | succ m ih =>
    have ih := ih (by omega) fun i hi => h i (by omega)
    rw [upTo,h m (Nat.lt_succ_self m) _ fun j hj => (ih j).trans (if_neg (by omega))]
    obtain rfl | hne := eq_or_ne (first + m) j
    · rw [read_write_self _ _ (by omega),if_pos (by omega),Nat.add_sub_cancel_left]
    · rw [read_write_ne _ _ hne,ih j]
      have : first ≤ j ∧ j < first + m ↔ first ≤ j ∧ j < first + (m + 1) := by omega
      simp only [this]

theorem read_fill (f : Nat → α) (v : Cells α n) (hm : m ≤ n) (j : Nat) :
    (upTo m v fun i v => v.write i (f i)).read j = if j < m then f j else v.read j := by
  have h := read_update (f := fun i _ => f i) (g := f) v 0 (by omega : 0 + m ≤ n)
    (fun _ _ _ _ => rfl) j
  simpa using h

/-! ### Arrays that are written from their start -/

/-- What has been written is the same in both. -/
def Agree (m : Nat) (u v : Cells α n) : Prop := ∀ i < m, u.read i = v.read i

theorem Agree.none (u v : Cells α n) : Agree 0 u v := fun i hi => absurd hi (Nat.not_lt_zero i)

theorem Agree.write {u v : Cells α n} {y : α} (h : Agree m u v) (hm : m < n) (hx : x = y) :
    Agree (m + 1) (u.write m x) (v.write m y) := by
  intro i hi
  obtain rfl | hne := eq_or_ne m i
  · rw [read_write_self _ _ hm,read_write_self _ _ hm,hx]
  · rw [read_write_ne _ _ hne,read_write_ne _ _ hne,h i (by omega)]

theorem Agree.eq {u v : Cells α n} (h : Agree n u v) : u = v := ext u v h

end Cells
