import Mathlib.Algebra.GroupWithZero.Nat
import Mathlib.Data.List.Range
import Mathlib.Data.List.Nodup
import Mathlib.Data.List.Count
set_option autoImplicit false

/-! An interval that is cut into pieces of one size, of which the last may be shorter, and the
writes that fill the pieces. -/

namespace Pieces
open List

structure Write where
  piece : Nat
  place : Nat
  source : Nat
  deriving DecidableEq

variable {size n p s k : Nat} {pieces : List Nat} {writes : List Write}

def locate (size k : Nat) : Write := ⟨k/size,k%size,k⟩

structure Tiles (size n : Nat) (pieces : List Nat) : Prop where
  sizes : ∀ p s,pieces[p]? = some s ↔ p*size < n ∧ s = min (n-p*size) size
  before : ∀ p,(pieces.take p).sum = min (p*size) n

structure Once (size : Nat) (pieces : List Nat) (writes : List Write) : Prop where
  inside : ∀ w ∈ writes,∃ s,pieces[w.piece]? = some s ∧ w.place < s ∧
    w.source = w.piece*size+w.place
  once : ∀ p s k,pieces[p]? = some s → k < s →
    (writes.filter fun w => w.piece = p ∧ w.place = k).length = 1

theorem div_mod_at (hk : k < size) : (p*size+k)/size = p ∧ (p*size+k)%size = k := by
  have hs : 0 < size := by omega
  rw [Nat.mul_comm,Nat.mul_add_div hs,Nat.mul_add_mod,Nat.mod_eq_of_lt hk,Nat.div_eq_of_lt hk]
  exact ⟨Nat.add_zero p,rfl⟩

theorem Tiles.nil : Tiles size 0 [] where
  sizes p s := by simp
  before p := by simp

theorem Tiles.cons (h : Tiles size (n-size) pieces) (hn : 0 < n) :
    Tiles size n (min n size :: pieces) where
  sizes p s := by
    cases p with
    | zero => simp [hn,eq_comm]
    | succ p =>
      have hm : (p+1)*size = p*size+size := Nat.succ_mul p size
      rw [getElem?_cons_succ,h.sizes,hm,show n-size-p*size = n-(p*size+size) by omega]
      exact and_congr_left' ⟨fun h => by omega,fun h => by omega⟩
  before p := by
    cases p with
    | zero => simp
    | succ p =>
      have hm : (p+1)*size = p*size+size := Nat.succ_mul p size
      rw [take_succ_cons,sum_cons,h.before,hm]
      omega

theorem Tiles.sum (h : Tiles size n pieces) (hs : 0 < size) : pieces.sum = n := by
  have hl : n ≤ max n pieces.length*size := Nat.le_trans (Nat.le_max_left _ _)
    (Nat.le_mul_of_pos_right _ hs)
  rw [← take_of_length_le (Nat.le_max_right n pieces.length),h.before]
  omega

theorem Tiles.once (h : Tiles size n pieces) (hs : 0 < size) :
    Once size pieces ((range n).map (locate size)) where
  inside := by
    intro w hw
    obtain ⟨k,hk,rfl⟩ := mem_map.mp hw
    have hk := mem_range.mp hk
    have hd := Nat.div_add_mod k size
    have hm := Nat.mod_lt k hs
    have hlt : k/size*size < n := Nat.lt_of_le_of_lt (Nat.div_mul_le_self k size) hk
    rw [Nat.mul_comm] at hd
    refine ⟨min (n-k/size*size) size,(h.sizes _ _).mpr ⟨hlt,rfl⟩,?_,hd.symm⟩
    simp only [locate]
    omega
  once := by
    intro p s k hp hk
    obtain ⟨hlt,rfl⟩ := (h.sizes p s).mp hp
    have hkn : p*size+k < n := by omega
    have he : ∀ j,((locate size j).piece = p ∧ (locate size j).place = k) ↔ j = p*size+k := by
      intro j
      simp only [locate]
      constructor
      · rintro ⟨rfl,rfl⟩
        rw [Nat.mul_comm]
        exact (Nat.div_add_mod j size).symm
      · rintro rfl
        exact div_mod_at (by omega)
    rw [filter_map,length_map]
    have hf : (range n).filter ((fun w : Write => decide (w.piece = p ∧ w.place = k)) ∘
        locate size) = (range n).filter (· == p*size+k) := by
      congr 1
      funext j
      simp only [Function.comp_apply,he]
      rw [Bool.eq_iff_iff]
      simp
    rw [hf,filter_beq,length_replicate]
    exact count_eq_one_of_mem nodup_range (mem_range.mpr hkn)

def stored {α : Type} (writes : List Write) (table : Nat → α) (p k : Nat) : Option α :=
  (writes.find? fun w => w.piece = p ∧ w.place = k).map fun w => table w.source

theorem Once.stored {α : Type} (h : Once size pieces writes) (table : Nat → α)
    (hp : pieces[p]? = some s) (hk : k < s) :
    stored writes table p k = some (table (p*size+k)) := by
  cases hf : writes.find? (fun w => w.piece = p ∧ w.place = k) with
  | none =>
    have hone := h.once p s k hp hk
    rw [filter_eq_nil_iff.mpr (by simpa using hf)] at hone
    simp at hone
  | some w =>
    obtain ⟨-,-,-,hw⟩ := h.inside w (mem_of_find?_eq_some hf)
    have hpk := find?_some hf
    simp only [decide_eq_true_eq] at hpk
    rw [hpk.1,hpk.2] at hw
    rw [Pieces.stored,hf,Option.map_some,hw]

/-! ### Writes and their values -/

structure Put (α : Type) where
  piece : Nat
  place : Nat
  value : α

variable {α : Type}

def Write.put (table : Nat → α) (w : Write) : Put α := ⟨w.piece,w.place,table w.source⟩

def held (puts : List (Put α)) (p k : Nat) : Option α :=
  (puts.reverse.find? fun w => w.piece = p ∧ w.place = k).map Put.value

theorem Once.held (h : Once size pieces writes) (table : Nat → α) {puts : List (Put α)}
    (hperm : puts.Perm (writes.map (Write.put table))) (hp : pieces[p]? = some s) (hk : k < s) :
    held puts p k = some (table (p*size+k)) := by
  obtain ⟨w,hw⟩ := length_eq_one_iff.mp (h.once p s k hp hk)
  have hmem : w ∈ writes ∧ w.piece = p ∧ w.place = k := by
    have hin : w ∈ writes.filter fun w => w.piece = p ∧ w.place = k := hw ▸ mem_singleton_self w
    simpa using mem_filter.mp hin
  obtain ⟨hin,rfl,rfl⟩ := hmem
  obtain ⟨-,-,-,hsource⟩ := h.inside w hin
  have hrev : puts.reverse.Perm (writes.map (Write.put table)) :=
    (reverse_perm puts).trans hperm
  have hfilter := hrev.filter fun v => v.piece = w.piece ∧ v.place = w.place
  have hone : (writes.map (Write.put table)).filter
      (fun v => v.piece = w.piece ∧ v.place = w.place) = [w.put table] := by
    rw [filter_map]
    exact congrArg (map (Write.put table)) hw
  rw [hone,perm_singleton] at hfilter
  rw [Pieces.held,← head?_filter,hfilter,← hsource]
  rfl

end Pieces
