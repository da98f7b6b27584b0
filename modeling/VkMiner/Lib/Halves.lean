import Mathlib.Algebra.Group.Nat.Defs
import Mathlib.Tactic.SplitIfs
set_option autoImplicit false

/-! A word of 64 bits as two halves of 32: what the halves have to do for the whole to be added,
subtracted, shifted and turned. -/

/-- The low half, then the high one. -/
structure Halves where
  x : BitVec 32
  y : BitVec 32
  deriving DecidableEq

namespace Halves

variable {n s i : Nat} {a b : BitVec 32}

instance : Inhabited Halves := ⟨⟨0,0⟩⟩

def join (p : Halves) : BitVec 64 := p.y ++ p.x

def rotl (x : BitVec 64) (n : Nat) : BitVec 64 := (x <<< n) ||| (x >>> (64 - n))

def rotr (x : BitVec 64) (n : Nat) : BitVec 64 := (x >>> n) ||| (x <<< (64 - n))

/-- The high half of `a`, moved up by `s`, with the top of `b` behind it. -/
def funnel (a b : BitVec 32) (s : Nat) : BitVec 32 := (a <<< s) ||| (b >>> (32 - s))

theorem join_toNat (p : Halves) : p.join.toNat = 2^32*p.y.toNat + p.x.toNat := by
  rw [join,BitVec.toNat_append,Nat.shiftLeft_eq,Nat.mul_comm,
    ← Nat.two_pow_add_eq_or_of_lt p.x.isLt]

theorem join_low (p : Halves) (hi : i < 32) : p.join.getLsbD i = p.x.getLsbD i := by
  rw [join,BitVec.getLsbD_append,if_pos hi]

theorem join_high (p : Halves) (i : Nat) : p.join.getLsbD (32 + i) = p.y.getLsbD i := by
  rw [join,BitVec.getLsbD_append,if_neg (by omega),Nat.add_sub_cancel_left]

theorem join_bits {p : Halves} {w : BitVec 64}
    (hx : ∀ i < 32, p.x.getLsbD i = w.getLsbD i)
    (hy : ∀ i < 32, p.y.getLsbD i = w.getLsbD (32 + i)) : p.join = w := by
  refine BitVec.eq_of_getLsbD_eq fun i hi => ?_
  by_cases h : i < 32
  · rw [join_low p h,hx i h]
  · obtain ⟨j,rfl⟩ := Nat.exists_eq_add_of_le (Nat.not_lt.mp h)
    rw [join_high,hy j (by omega)]

theorem shl_bit {w : Nat} (x : BitVec w) (n : Nat) (hi : i < w) :
    (x <<< n).getLsbD i = if i < n then false else x.getLsbD (i - n) := by
  rw [BitVec.getLsbD_shiftLeft]
  by_cases h : i < n
  · simp [h]
  · simp only [hi,h,decide_true,decide_false,Bool.not_false,Bool.true_and,if_false]

/-- The bits of a word turned or moved up by `n`, with those of another behind it. -/
theorem moved_bit {w : Nat} (a b : BitVec w) (hn : n ≤ w) (hi : i < w) :
    ((a <<< n) ||| (b >>> (w - n))).getLsbD i =
      if i < n then b.getLsbD (w - n + i) else a.getLsbD (i - n) := by
  rw [BitVec.getLsbD_or,shl_bit a n hi,BitVec.getLsbD_ushiftRight]
  by_cases h : i < n
  · rw [if_pos h,if_pos h,Bool.false_or]
  · rw [if_neg h,if_neg h,BitVec.getLsbD_of_ge b _ (by omega),Bool.or_false]

theorem funnel_bit (a b : BitVec 32) (hs : s ≤ 32) (hi : i < 32) : (funnel a b s).getLsbD i =
    if i < s then b.getLsbD (32 - s + i) else a.getLsbD (i - s) := moved_bit a b hs hi

theorem rotl_bit (x : BitVec 64) (hn : n ≤ 64) (hi : i < 64) : (rotl x n).getLsbD i =
    if i < n then x.getLsbD (64 - n + i) else x.getLsbD (i - n) := moved_bit x x hn hi

theorem rotr_eq (x : BitVec 64) (hn : n ≤ 64) : rotr x n = rotl x (64 - n) := by
  rw [rotr,rotl,Nat.sub_sub_self hn,BitVec.or_comm]

theorem join_eq (p : Halves) : p.join = p.x.setWidth 64 ||| (p.y.setWidth 64 <<< 32) := by
  refine join_bits (fun i hi => ?_) fun i hi => ?_
  · rw [BitVec.getLsbD_or,shl_bit _ _ (by omega),if_pos hi,Bool.or_false,BitVec.getLsbD_setWidth,
      decide_eq_true (by omega : i < 64),Bool.true_and]
  · rw [BitVec.getLsbD_or,shl_bit _ _ (by omega),if_neg (by omega),Nat.add_sub_cancel_left,
      BitVec.getLsbD_setWidth,BitVec.getLsbD_setWidth,BitVec.getLsbD_of_ge p.x _ (by omega),
      Bool.and_false,Bool.false_or,decide_eq_true (by omega : i < 64),Bool.true_and]

theorem low_join (p : Halves) : p.join.setWidth 32 = p.x := by
  refine BitVec.eq_of_getLsbD_eq fun i hi => ?_
  rw [BitVec.getLsbD_setWidth,join_low p hi,decide_eq_true hi,Bool.true_and]

theorem high_join (p : Halves) : (p.join >>> 32).setWidth 32 = p.y := by
  refine BitVec.eq_of_getLsbD_eq fun i hi => ?_
  rw [BitVec.getLsbD_setWidth,BitVec.getLsbD_ushiftRight,join_high,decide_eq_true hi,
    Bool.true_and]

def split (x : BitVec 64) : Halves := ⟨x.setWidth 32,(x >>> 32).setWidth 32⟩

theorem join_split (x : BitVec 64) : (split x).join = x := by
  refine join_bits (fun i hi => ?_) fun i hi => ?_
  · rw [split,BitVec.getLsbD_setWidth,decide_eq_true hi,Bool.true_and]
  · rw [split,BitVec.getLsbD_setWidth,BitVec.getLsbD_ushiftRight,decide_eq_true hi,Bool.true_and]

/-! ### Carries -/

def carry (a b : BitVec 32) : BitVec 32 := if a + b < a then 1 else 0

def borrow (a b : BitVec 32) : BitVec 32 := if a < b then 1 else 0

theorem join_add (p q : Halves) :
    join ⟨p.x + q.x,p.y + q.y + carry p.x q.x⟩ = p.join + q.join := by
  have hp := p.x.isLt
  have hq := q.x.isLt
  refine BitVec.eq_of_toNat_eq ?_
  simp only [join_toNat,BitVec.toNat_add,carry,BitVec.lt_def]
  split
  · rw [show (1 : BitVec 32).toNat = 1 from rfl]
    omega
  · rw [show (0 : BitVec 32).toNat = 0 from rfl]
    omega

theorem join_sub (p q : Halves) :
    join ⟨p.x - q.x,p.y - q.y - borrow p.x q.x⟩ = p.join - q.join := by
  have hp := p.x.isLt
  have hq := q.x.isLt
  have hp' := p.y.isLt
  have hq' := q.y.isLt
  refine BitVec.eq_of_toNat_eq ?_
  simp only [join_toNat,BitVec.toNat_sub,borrow,BitVec.lt_def]
  split
  · rw [show (1 : BitVec 32).toNat = 1 from rfl]
    omega
  · rw [show (0 : BitVec 32).toNat = 0 from rfl]
    omega

/-! ### Bits side by side -/

theorem join_xor (p q : Halves) : join ⟨p.x ^^^ q.x,p.y ^^^ q.y⟩ = p.join ^^^ q.join :=
  join_bits (fun i hi => by simp only [BitVec.getLsbD_xor,join_low _ hi])
    fun i _ => by simp only [BitVec.getLsbD_xor,join_high]

theorem join_and (p q : Halves) : join ⟨p.x &&& q.x,p.y &&& q.y⟩ = p.join &&& q.join :=
  join_bits (fun i hi => by simp only [BitVec.getLsbD_and,join_low _ hi])
    fun i _ => by simp only [BitVec.getLsbD_and,join_high]

theorem join_not (p : Halves) : join ⟨~~~p.x,~~~p.y⟩ = ~~~p.join := by
  refine join_bits (fun i hi => ?_) fun i hi => ?_
  · simp only [BitVec.getLsbD_not,join_low _ hi,hi,show i < 64 by omega]
  · simp only [BitVec.getLsbD_not,join_high,hi,show 32 + i < 64 by omega]

/-! ### Shifts and turns -/

theorem join_shl (p : Halves) (hn : n ≤ 32) :
    join ⟨p.x <<< n,funnel p.y p.x n⟩ = p.join <<< n := by
  refine join_bits (fun i hi => ?_) fun i hi => ?_
  · rw [shl_bit _ _ hi,shl_bit _ _ (by omega),join_low p (by omega)]
  · have hfar : ¬32 + i < n := by omega
    rw [funnel_bit _ _ hn hi,shl_bit _ _ (by omega),if_neg hfar]
    by_cases h : i < n
    · rw [if_pos h,show 32 + i - n = 32 - n + i by omega,join_low p (by omega)]
    · rw [if_neg h,show 32 + i - n = 32 + (i - n) by omega,join_high]

theorem join_shr (p : Halves) (hn : n ≤ 32) :
    join ⟨funnel p.y p.x (32 - n),p.y >>> n⟩ = p.join >>> n := by
  refine join_bits (fun i hi => ?_) fun i hi => ?_
  · rw [funnel_bit _ _ (by omega) hi,BitVec.getLsbD_ushiftRight]
    split
    · rw [show 32 - (32 - n) + i = n + i by omega,join_low p (by omega)]
    · rw [show n + i = 32 + (i - (32 - n)) by omega,join_high]
  · rw [BitVec.getLsbD_ushiftRight,BitVec.getLsbD_ushiftRight,
      show n + (32 + i) = 32 + (n + i) by omega,join_high]

theorem join_shr_far (p : Halves) (n : Nat) : join ⟨p.y >>> n,0⟩ = p.join >>> (32 + n) := by
  refine join_bits (fun i hi => ?_) fun i hi => ?_
  · rw [BitVec.getLsbD_ushiftRight,BitVec.getLsbD_ushiftRight,Nat.add_assoc,join_high]
  · rw [BitVec.getLsbD_ushiftRight,
      BitVec.getLsbD_of_ge p.join _ (by omega : 64 ≤ 32 + n + (32 + i))]
    exact BitVec.getLsbD_zero

theorem join_rotl (p : Halves) (hs : s ≤ 32) :
    join ⟨funnel p.x p.y s,funnel p.y p.x s⟩ = rotl p.join s := by
  refine join_bits (fun i hi => ?_) fun i hi => ?_
  · rw [funnel_bit _ _ hs hi,rotl_bit _ (by omega) (by omega)]
    split
    · rw [show 64 - s + i = 32 + (32 - s + i) by omega,join_high]
    · rw [join_low p (by omega)]
  · have hfar : ¬32 + i < s := by omega
    rw [funnel_bit _ _ hs hi,rotl_bit _ (by omega) (by omega),if_neg hfar]
    by_cases h : i < s
    · rw [if_pos h,show 32 + i - s = 32 - s + i by omega,join_low p (by omega)]
    · rw [if_neg h,show 32 + i - s = 32 + (i - s) by omega,join_high]

theorem join_swap (p : Halves) : join ⟨p.y,p.x⟩ = rotl p.join 32 := by
  refine join_bits (fun i hi => ?_) fun i hi => ?_
  · rw [rotl_bit _ (by omega) (by omega),if_pos hi,join_high]
  · rw [rotl_bit _ (by omega) (by omega),if_neg (by omega),Nat.add_sub_cancel_left,
      join_low p hi]

theorem rotl_rotl (x : BitVec 64) {m : Nat} (h : m + n ≤ 64) :
    rotl (rotl x m) n = rotl x (m + n) := by
  refine BitVec.eq_of_getLsbD_eq fun i hi => ?_
  rw [rotl_bit _ (by omega) hi,rotl_bit _ h hi]
  split
  · rw [rotl_bit _ (by omega) (by omega),if_neg (by omega),if_pos (by omega),
      show 64 - n + i - m = 64 - (m + n) + i by omega]
  · rw [rotl_bit _ (by omega) (by omega)]
    split
    · rw [if_pos (by omega),show 64 - m + (i - n) = 64 - (m + n) + i by omega]
    · rw [if_neg (by omega),show i - n - m = i - (m + n) by omega]

theorem rotl_zero (x : BitVec 64) : rotl x 0 = x := by
  refine BitVec.eq_of_getLsbD_eq fun i hi => ?_
  rw [rotl_bit x (by omega) hi,if_neg (Nat.not_lt_zero i),Nat.sub_zero]

def turn (p : Halves) (n : Nat) : Halves :=
  let v := if 32 ≤ n then ⟨p.y,p.x⟩ else p
  let s := n % 32
  if s = 0 then v else ⟨funnel v.x v.y s,funnel v.y v.x s⟩

theorem join_turn (p : Halves) (hn : n < 64) : (turn p n).join = rotl p.join n := by
  have hrest (v : Halves) : (if n % 32 = 0 then v else
      (⟨funnel v.x v.y (n % 32),funnel v.y v.x (n % 32)⟩ : Halves)).join =
        rotl v.join (n % 32) := by
    split
    · next h => rw [h,rotl_zero]
    · exact join_rotl v (by omega)
  rw [turn,hrest]
  split
  · rw [join_swap,rotl_rotl _ (by omega),show 32 + n % 32 = n by omega]
  · rw [show n % 32 = n by omega]

theorem rotr_bit (x : BitVec 64) (hn : n ≤ 64) (hi : i < 64) : (rotr x n).getLsbD i =
    if i + n < 64 then x.getLsbD (i + n) else x.getLsbD (i + n - 64) := by
  rw [rotr_eq x hn,rotl_bit x (by omega) hi,Nat.sub_sub_self hn]
  by_cases h : i + n < 64
  · rw [if_pos (by omega),if_pos h,Nat.add_comm]
  · rw [if_neg (by omega),if_neg h,show i - (64 - n) = i + n - 64 by omega]

theorem rotr_rotr (x : BitVec 64) {m : Nat} (h : m + n ≤ 64) :
    rotr (rotr x m) n = rotr x (m + n) := by
  refine BitVec.eq_of_getLsbD_eq fun i hi => ?_
  rw [rotr_bit _ (by omega) hi,rotr_bit _ h hi]
  split
  · rw [rotr_bit _ (by omega) (by omega)]
    simp only [show i + n + m = i + (m + n) by omega]
  · rw [rotr_bit _ (by omega) (by omega),if_pos (by omega),if_neg (by omega),
      show i + n - 64 + m = i + (m + n) - 64 by omega]

theorem rotr_zero (x : BitVec 64) : rotr x 0 = x := by
  refine BitVec.eq_of_getLsbD_eq fun i hi => ?_
  rw [rotr_bit x (by omega) hi,if_pos (by omega),Nat.add_zero]

theorem join_rotr (p : Halves) (hs : s ≤ 32) :
    join ⟨funnel p.y p.x (32 - s),funnel p.x p.y (32 - s)⟩ = rotr p.join s := by
  have h := join_rotl ⟨p.y,p.x⟩ (by omega : 32 - s ≤ 32)
  rw [h,join_swap,rotl_rotl _ (by omega),rotr_eq _ (by omega),show 32 + (32 - s) = 64 - s by omega]

def turnRight (p : Halves) (n : Nat) : Halves :=
  let v := if 32 ≤ n then ⟨p.y,p.x⟩ else p
  let s := n % 32
  if s = 0 then v else ⟨funnel v.y v.x (32 - s),funnel v.x v.y (32 - s)⟩

theorem join_turnRight (p : Halves) (hn : n < 64) : (turnRight p n).join = rotr p.join n := by
  have hrest (v : Halves) : (if n % 32 = 0 then v else
      (⟨funnel v.y v.x (32 - n % 32),funnel v.x v.y (32 - n % 32)⟩ : Halves)).join =
        rotr v.join (n % 32) := by
    split
    · next h => rw [h,rotr_zero]
    · exact join_rotr v (by omega)
  have hswap : rotl p.join 32 = rotr p.join 32 := by
    rw [rotr_eq p.join (by omega),show (64 - 32 : Nat) = 32 from rfl]
  rw [turnRight,hrest]
  split
  · rw [join_swap,hswap,rotr_rotr _ (by omega),show 32 + n % 32 = n by omega]
  · rw [show n % 32 = n by omega]

/-- How words of 64 bits are kept: whole, in halves that are packed for the adds, or in halves. -/
inductive Kind
  | wide
  | wideAdd
  | pairs
  deriving DecidableEq

namespace Kind

def Lane : Kind → Type
  | wide => BitVec 64
  | wideAdd => Halves
  | pairs => Halves

instance (kind : Kind) : Inhabited kind.Lane :=
  match kind with
  | .wide => inferInstanceAs (Inhabited (BitVec 64))
  | .wideAdd => inferInstanceAs (Inhabited Halves)
  | .pairs => inferInstanceAs (Inhabited Halves)

def val : (kind : Kind) → kind.Lane → BitVec 64
  | .wide => id
  | .wideAdd => join
  | .pairs => join

end Kind

end Halves
