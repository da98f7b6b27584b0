import Mathlib.Tactic.IntervalCases
import VkMiner.Skein.Lanes
set_option autoImplicit false

/-! The device's Threefish against the host's, over whole words: four rounds that name the words
anew are four rounds that move them. -/

namespace VkMiner.Skein
open Loops Halves Glsl

variable {a : Nat → Nat} {v p : Cells Word64 8} {k : Cells Word64 9} {t : Cells Word64 3}
  {d s i j : Nat} {r : Rotations}

theorem perm_lt (hi : i < 8) : skein512Perm i < 8 := by
  interval_cases i <;> decide

/-- The word `j` that the mixes of a round leave, of words that are read through `x`. -/
def mixed (rot : Nat → Nat) (x : Nat → Word64) (j : Nat) : Word64 :=
  if j % 2 = 0 then x j + x (j + 1) else rotl (x j) (rot (j / 2)) ^^^ (x (j - 1) + x j)

theorem mixed_congr {rot rot' : Nat → Nat} {x x' : Nat → Word64} (hrot : ∀ i < 4,rot i = rot' i)
    (hx : ∀ i < 8,x i = x' i) (hj : j < 8) : mixed rot x j = mixed rot' x' j := by
  rw [mixed,mixed,hrot (j / 2) (by omega),hx j hj,hx (j - 1) (by omega)]
  split
  case isTrue h => rw [hx (j + 1) (by omega)]
  case isFalse => rfl

theorem mixRound_read (d : Nat) (v : Cells Word64 8) (hi : i < 8) :
    (mixRound d v).read i = mixed (skein512Rot (d % 8)) v.read (skein512Perm i) := by
  have hlt := perm_lt hi
  rw [mixRound,Cells.read_fill _ _ (Nat.le_refl 8),if_pos hi]
  generalize skein512Perm i = j at hlt
  simp only [upTo]
  interval_cases j <;>
    simp (disch := decide) only [Cells.read_write_self,Cells.read_write_ne] <;> rfl

def fourMixes (a : Nat → Nat) (rot : Nat → Nat) (p : Cells Word64 8) : Cells Word64 8 :=
  mix int64 (a 6) (a 7) (rot 3) (mix int64 (a 4) (a 5) (rot 2)
    (mix int64 (a 2) (a 3) (rot 1) (mix int64 (a 0) (a 1) (rot 0) p)))

/-- Eight names of eight words. -/
structure Naming (a : Nat → Nat) : Prop where
  lt : ∀ i < 8,a i < 8
  ne : ∀ i < 8,∀ j < 8,i ≠ j → a i ≠ a j

theorem fourMixes_read (ha : Naming a) (rot : Nat → Nat) (p : Cells Word64 8) (hj : j < 8) :
    (fourMixes a rot p).read (a j) = mixed rot (fun i => p.read (a i)) j := by
  have hlt (i : Nat) (hi : i < 8) : a i < 8 := ha.lt i hi
  have hne (i j : Nat) (hi : i < 8) (hj : j < 8) (h : i ≠ j) : a i ≠ a j := ha.ne i hi j hj h
  interval_cases j <;>
    simp (disch := first
      | exact hlt _ (by decide)
      | exact hne _ _ (by decide) (by decide) (by decide)) only
      [fourMixes,mix,Cells.read_write_self,Cells.read_write_ne] <;> rfl

def Named (a : Nat → Nat) (v p : Cells Word64 8) : Prop := ∀ i < 8,v.read i = p.read (a i)

theorem Named.mixRound (h : Named a v p) (ha : Naming a) {rot : Nat → Nat}
    (hrot : ∀ i < 4,skein512Rot (d % 8) i = rot i) :
    Named (fun i => a (skein512Perm i)) (mixRound d v) (fourMixes a rot p) := by
  intro i hi
  rw [mixRound_read d v hi,fourMixes_read ha rot p (perm_lt hi)]
  exact mixed_congr hrot h (perm_lt hi)

theorem addSubkey_eq (k : Cells Word64 9) (t : Cells Word64 3) (hs : s < 19) (p : Cells Word64 8) :
    inject int64 k t s p = addSubkey k t s p := by
  have hcount : int64.tlane (BitVec.ofNat 32 s) 0 = BitVec.ofNat 64 s := by
    interval_cases s <;> decide
  refine Cells.ext _ _ fun i hi => ?_
  simp only [inject,addSubkey,upTo,hcount]
  interval_cases i <;>
    simp (disch := decide) only [Cells.read_write_self,Cells.read_write_ne,int64,BitVec.add_assoc]

theorem rounds4_eq (k : Cells Word64 9) (t : Cells Word64 3) (hs : s < 18)
    (hr : ∀ i < 4,∀ j < 4,skein512Rot ((s * 4 + i) % 8) j = r i j) (p : Cells Word64 8) :
    rounds4 int64 k t s r p = upTo 4 p fun i => round k t (s * 4 + i) := by
  have hnaming (a : Nat → Nat) (h : (∀ i < 8,a i < 8) ∧ ∀ i < 8,∀ j < 8,i ≠ j → a i ≠ a j) :
      Naming a := ⟨h.1,h.2⟩
  have hkey : round k t (s * 4 + 0) p = mixRound (s * 4 + 0) (inject int64 k t s p) := by
    rw [round,if_pos (by omega),addSubkey_eq k t (by omega),show (s * 4 + 0) / 4 = s from by omega]
  have hplain (i : Nat) (hi : 0 < i ∧ i < 4) (v : Cells Word64 8) :
      round k t (s * 4 + i) v = mixRound (s * 4 + i) v := by
    rw [round,if_neg (by omega)]
  have h₀ : Named id (inject int64 k t s p) (inject int64 k t s p) := fun _ _ => rfl
  have h₁ := h₀.mixRound (hnaming _ (by decide)) (hr 0 (by decide))
  have h₂ := h₁.mixRound (hnaming _ (by decide)) (hr 1 (by decide))
  have h₃ := h₂.mixRound (hnaming _ (by decide)) (hr 2 (by decide))
  have h₄ := h₃.mixRound (hnaming _ (by decide)) (hr 3 (by decide))
  refine Cells.ext _ _ fun i hi => ?_
  simp only [upTo,hkey,hplain 1 (by decide),hplain 2 (by decide),hplain 3 (by decide)]
  rw [h₄ i hi]
  have hround : ∀ i < 8,id (skein512Perm (skein512Perm (skein512Perm (skein512Perm i)))) = i := by
    decide
  exact congrArg (Cells.read (rounds4 int64 k t s r p)) (hround i hi).symm

theorem even_eq (k : Cells Word64 9) (t : Cells Word64 3) (hs : s < 18) (he : s % 2 = 0)
    (p : Cells Word64 8) : even int64 k t s p = upTo 4 p fun i => round k t (s * 4 + i) := by
  refine rounds4_eq k t hs (fun i hi => ?_) p
  rw [show (s * 4 + i) % 8 = i from by omega]
  interval_cases i <;> decide

theorem odd_eq (k : Cells Word64 9) (t : Cells Word64 3) (hs : s < 18) (ho : s % 2 = 1)
    (p : Cells Word64 8) : odd int64 k t s p = upTo 4 p fun i => round k t (s * 4 + i) := by
  refine rounds4_eq k t hs (fun i hi => ?_) p
  rw [show (s * 4 + i) % 8 = 4 + i from by omega]
  interval_cases i <;> decide

theorem rounds_eq (k : Cells Word64 9) (t : Cells Word64 3) (p : Cells Word64 8) :
    rounds int64 k t p = addSubkey k t 18 (upTo 72 p (round k t)) := by
  obtain ⟨f,hf⟩ : ∃ f : Nat → Cells Word64 8 → Cells Word64 8,
      ∀ s p,f s p = upTo 4 p fun i => round k t (s * 4 + i) := ⟨_,fun _ _ => rfl⟩
  have heven (s : Nat) (hs : s < 18) (he : s % 2 = 0) (p : Cells Word64 8) :
      even int64 k t s p = f s p := (even_eq k t hs he p).trans (hf s p).symm
  have hodd (s : Nat) (hs : s < 18) (ho : s % 2 = 1) (p : Cells Word64 8) :
      odd int64 k t s p = f s p := (odd_eq k t hs ho p).trans (hf s p).symm
  have hrows : upTo 72 p (round k t) = upTo 18 p f :=
    (upTo_rows 18 4 p (round k t)).trans (upTo_congr p fun s _ p => (hf s p).symm)
  rw [rounds,addSubkey_eq k t (by decide),hrows]
  simp (disch := decide) only [heven,hodd]
  rfl

theorem ubi_eq (h m : Cells Word64 8) (t0 t1 : Word64) :
    skein512Ubi int64 h m t0 t1 = ubiBlock h #v[t0,t1] m := by
  have hkey : Glsl.keyWords int64 h = keyWords h := rfl
  have htweak : Glsl.tweakWords int64 t0 t1 = tweakWords #v[t0,t1] := rfl
  have hcopy : (upTo 8 (Cells.blank 8) fun i (v : Cells Word64 8) => v.write i (m.read i)) = m :=
    Cells.ext _ _ fun i hi => by rw [Cells.read_fill _ _ (Nat.le_refl 8),if_pos hi]
  rw [skein512Ubi,ubiBlock,threefish512,hkey,htweak,rounds_eq,hcopy]
  rfl

end VkMiner.Skein
