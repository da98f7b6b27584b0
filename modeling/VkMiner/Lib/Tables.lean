import Mathlib.Tactic.IntervalCases
import VkMiner.Lib.Loops
set_option autoImplicit false

/-! Tables in the memory of a workgroup, one behind the other, that its lanes fill by strides. -/

namespace Tables
open Loops List

variable {n count tables width v r : Nat} {g : Nat → Nat → BitVec 32}

def entry (count tables : Nat) (g : Nat → Nat → BitVec 32) (t : Words n) (i : Nat) : Words n :=
  upTo tables t fun r t => t.write (count*r + i) (g r i)

theorem entry_read (t : Words n) (hn : count*tables ≤ n) (hr : r < tables) {i : Nat}
    (hi : i < count) (hv : v < count) : (entry count tables g t i).read (count*r + v) =
      if i = v then g r v else t.read (count*r + v) := by
  have hplace {a b i j : Nat} (hi : i < count) (hj : j < count) (h : count*a + i = count*b + j) :
      a = b ∧ i = j := by
    have hdiv := congrArg (· / count) h
    have hmod := congrArg (· % count) h
    simp only [Nat.mul_add_div (by omega : count > 0),Nat.mul_add_mod,Nat.div_eq_of_lt hi,
      Nat.div_eq_of_lt hj,Nat.mod_eq_of_lt hi,Nat.mod_eq_of_lt hj] at hdiv hmod
    exact ⟨by omega,hmod⟩
  by_cases h : i = v
  · subst h
    rw [if_pos rfl]
    refine upTo_sets (Words.read · (count*r + i)) t hr (fun s => ?_) fun a ha _ s => ?_
    · have hrow : count*r + count ≤ count*tables := by
        rw [← Nat.mul_succ]
        exact Nat.mul_le_mul_left count hr
      exact Words.read_write_self _ _ (by omega)
    · exact Words.read_write_ne _ _ fun he => by have := (hplace hi hv he).1; omega
  · rw [if_neg h]
    refine upTo_keep (Words.read · (count*r + v)) t fun a _ s => ?_
    exact Words.read_write_ne _ _ fun he => h (hplace hi hv he).2

theorem entries_read (hn : count*tables ≤ n) (hr : r < tables) (hv : v < count)
    {places : List Nat} (hp : ∀ i ∈ places,i < count) (t : Words n)
    (ht : v ∈ places ∨ t.read (count*r + v) = g r v) :
    (places.foldl (entry count tables g) t).read (count*r + v) = g r v := by
  induction places generalizing t with
  | nil => exact ht.resolve_left not_mem_nil
  | cons i places ih =>
    refine ih (fun j hj => hp j (mem_cons_of_mem i hj)) _ ?_
    rw [entry_read t hn hr (hp i mem_cons_self) hv]
    by_cases h : i = v
    · exact .inr (if_pos h)
    · rw [if_neg h]
      exact ht.imp_left fun hmem => (mem_cons.mp hmem).resolve_left (Ne.symm h)

theorem strides_read (hn : count*tables ≤ n) (hw : 0 < width) (hr : r < tables) (hv : v < count)
    (t : Words n) : (((range width).flatMap fun lane => strided lane width count).foldl
      (entry count tables g) t).read (count*r + v) = g r v := by
  refine entries_read hn hr hv (fun i hi => ?_) t (.inl (mem_strides hv hw))
  obtain ⟨lane,-,hlane⟩ := mem_flatMap.mp hi
  exact ((mem_strided hw).mp hlane).2.1

end Tables
