import VkMiner.Lib.Loops
set_option autoImplicit false

/-! An array of words in one number, in which it is quick to work out what a loop makes of it. -/

namespace Packed
open Loops

variable {n i j s : Nat} {x : BitVec 32}

def lane (s i : Nat) : BitVec 32 := BitVec.ofNat 32 (s >>> (32*i))

def put (s i : Nat) (x : BitVec 32) : Nat := s ^^^ ((lane s i ^^^ x).toNat <<< (32*i))

def words (n s : Nat) : Words n := Vector.ofFn fun i => lane s i

theorem lane_bit (s i : Nat) {k : Nat} (hk : k < 32) :
    (lane s i).getLsbD k = s.testBit (32*i + k) := by
  rw [lane,BitVec.getLsbD_ofNat,decide_eq_true hk,Bool.true_and,Nat.testBit_shiftRight]

theorem put_bit (s i : Nat) (x : BitVec 32) (m : Nat) : (put s i x).testBit m =
    (s.testBit m ^^ (decide (32*i ≤ m) && (lane s i ^^^ x).getLsbD (m - 32*i))) := by
  rw [put,Nat.testBit_xor,Nat.testBit_shiftLeft,BitVec.testBit_toNat]

theorem lane_put_self (s i : Nat) (x : BitVec 32) : lane (put s i x) i = x := by
  refine BitVec.eq_of_getLsbD_eq fun k hk => ?_
  rw [lane_bit _ _ hk,put_bit,Nat.add_sub_cancel_left,BitVec.getLsbD_xor,lane_bit _ _ hk,
    decide_eq_true (Nat.le_add_right _ _),Bool.true_and,← Bool.xor_assoc,Bool.xor_self,
    Bool.false_xor]

theorem lane_put_ne (s : Nat) (x : BitVec 32) (h : i ≠ j) : lane (put s i x) j = lane s j := by
  refine BitVec.eq_of_getLsbD_eq fun k hk => ?_
  rw [lane_bit _ _ hk,lane_bit _ _ hk,put_bit]
  obtain hlt | hle := Nat.lt_or_ge (32*j + k) (32*i)
  · rw [decide_eq_false (Nat.not_le.mpr hlt),Bool.false_and,Bool.xor_false]
  · rw [BitVec.getLsbD_of_ge _ _ (by omega),Bool.and_false,Bool.xor_false]

theorem words_read (s : Nat) (hi : i < n) : (words n s).read i = lane s i := Words.read_ofFn _ hi

theorem words_zero (n : Nat) : words n 0 = Words.zeros n := by
  refine Words.ext _ _ fun i hi => ?_
  rw [words_read _ hi,Words.read_zeros,lane,Nat.zero_shiftRight]
  rfl

theorem words_put (s : Nat) (x : BitVec 32) (hi : i < n) :
    words n (put s i x) = (words n s).write i x := by
  refine Words.ext _ _ fun j hj => ?_
  rw [words_read _ hj]
  obtain rfl | hne := eq_or_ne i j
  · rw [lane_put_self,Words.read_write_self _ _ hi]
  · rw [lane_put_ne _ _ hne,Words.read_write_ne _ _ hne,words_read _ hj]

def pack (v : Words n) : Nat := upTo n 0 fun i s => put s i (v.read i)

theorem words_pack (v : Words n) : words n (pack v) = v := by
  have hfill : words n (pack v) = upTo n (Words.zeros n) fun i w => w.write i (v.read i) := by
    rw [pack,← words_zero]
    exact upTo_hom (words n) 0 fun i hi s => words_put s _ hi
  refine Words.ext _ _ fun i hi => ?_
  rw [hfill,Words.read_fill _ _ (Nat.le_refl n) hi]

end Packed
