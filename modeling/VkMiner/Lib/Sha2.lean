import VkMiner.Lib.Cells
set_option autoImplicit false

/-! The compression function of SHA-2 over words of any width, and what holds a part of its
schedule. -/

namespace Sha2
open Loops

structure Sigmas (n : Nat) where
  bigS0 : BitVec n → BitVec n
  bigS1 : BitVec n → BitVec n
  smallS0 : BitVec n → BitVec n
  smallS1 : BitVec n → BitVec n

variable {n : Nat}

def ch (x y z : BitVec n) : BitVec n := (x &&& y) ^^^ (~~~x &&& z)

def maj (x y z : BitVec n) : BitVec n := (x &&& y) ^^^ (x &&& z) ^^^ (y &&& z)

structure Vars (n : Nat) where
  a : BitVec n
  b : BitVec n
  c : BitVec n
  d : BitVec n
  e : BitVec n
  f : BitVec n
  g : BitVec n
  h : BitVec n

namespace Vars

def step (σ : Sigmas n) (k w : BitVec n) (v : Vars n) : Vars n :=
  let t1 := v.h + σ.bigS1 v.e + ch v.e v.f v.g + k + w
  let t2 := σ.bigS0 v.a + maj v.a v.b v.c
  ⟨t1 + t2,v.a,v.b,v.c,v.d + t1,v.e,v.f,v.g⟩

def load (s : Cells (BitVec n) 8) : Vars n :=
  ⟨s.read 0,s.read 1,s.read 2,s.read 3,s.read 4,s.read 5,s.read 6,s.read 7⟩

def feed (s : Cells (BitVec n) 8) (v : Vars n) : Cells (BitVec n) 8 :=
  #v[s.read 0 + v.a,s.read 1 + v.b,s.read 2 + v.c,s.read 3 + v.d,
    s.read 4 + v.e,s.read 5 + v.f,s.read 6 + v.g,s.read 7 + v.h]

end Vars

variable {σ : Sigmas n} {k w w' m m' : Nat → BitVec n} {lo hi first : Nat}

def rounds (σ : Sigmas n) (k w : Nat → BitVec n) (first count : Nat) (v : Vars n) : Vars n :=
  upTo count v fun i v => v.step σ (k (first + i)) (w (first + i))

theorem rounds_succ (σ : Sigmas n) (k w : Nat → BitVec n) (first count : Nat) (v : Vars n) :
    rounds σ k w first (count + 1) v =
      (rounds σ k w first count v).step σ (k (first + count)) (w (first + count)) := rfl

theorem rounds_add (σ : Sigmas n) (k w : Nat → BitVec n) (first count count' : Nat) (v : Vars n) :
    rounds σ k w first (count + count') v =
      rounds σ k w (first + count) count' (rounds σ k w first count v) := by
  induction count' with
  | zero => rfl
  | succ count' ih => rw [← Nat.add_assoc,rounds_succ,rounds_succ,ih,Nat.add_assoc]

theorem rounds_congr {count : Nat} (v : Vars n) (h : ∀ i < count, w (first + i) = w' (first + i)) :
    rounds σ k w first count v = rounds σ k w' first count v :=
  upTo_congr v fun i hi v => by rw [h i hi]

def schedule (σ : Sigmas n) (m : Nat → BitVec n) (i : Nat) : BitVec n :=
  if i < 16 then m i
  else
    σ.smallS1 (schedule σ m (i - 2)) + schedule σ m (i - 7) + σ.smallS0 (schedule σ m (i - 15)) +
      schedule σ m (i - 16)
termination_by i

theorem schedule_block (σ : Sigmas n) (m : Nat → BitVec n) {i : Nat} (hi : i < 16) :
    schedule σ m i = m i := by
  rw [schedule,if_pos hi]

theorem schedule_further (σ : Sigmas n) (m : Nat → BitVec n) {i : Nat} (hi : 16 ≤ i) :
    schedule σ m i = σ.smallS1 (schedule σ m (i - 2)) + schedule σ m (i - 7) +
      σ.smallS0 (schedule σ m (i - 15)) + schedule σ m (i - 16) := by
  rw [schedule,if_neg (Nat.not_lt.mpr hi)]

theorem schedule_congr (h : ∀ i < 16, m i = m' i) (i : Nat) :
    schedule σ m i = schedule σ m' i := by
  induction i using Nat.strong_induction_on with
  | _ i ih =>
    by_cases hi : i < 16
    · rw [schedule_block σ m hi,schedule_block σ m' hi,h i hi]
    · have hi := Nat.not_lt.mp hi
      rw [schedule_further σ m hi,schedule_further σ m' hi,ih (i - 16) (by omega),
        ih (i - 15) (by omega),ih (i - 7) (by omega),ih (i - 2) (by omega)]

def compress (σ : Sigmas n) (k : Nat → BitVec n) (count : Nat) (m : Nat → BitVec n)
    (s : Cells (BitVec n) 8) : Cells (BitVec n) 8 :=
  (rounds σ k (schedule σ m) 0 count (.load s)).feed s

theorem compress_congr (h : ∀ i < 16, m i = m' i) (count : Nat) (s : Cells (BitVec n) 8) :
    compress σ k count m s = compress σ k count m' s := by
  rw [compress,compress,rounds_congr (.load s) fun i _ => schedule_congr h (0 + i)]

def Filled (σ : Sigmas n) (m : Nat → BitVec n) (lo hi : Nat) (w : Nat → BitVec n) : Prop :=
  ∀ j, lo ≤ j → j < hi → w j = schedule σ m j

namespace Filled

theorem mono (h : Filled σ m lo hi w) {lo' hi' : Nat} (hlo : lo ≤ lo') (hhi : hi' ≤ hi) :
    Filled σ m lo' hi' w :=
  fun j hj hj' => h j (by omega) (by omega)

theorem snoc (h : Filled σ m lo hi w) (hsame : ∀ j, lo ≤ j → j < hi → w' j = w j)
    (hx : w' hi = schedule σ m hi) : Filled σ m lo (hi + 1) w' := by
  intro j hlo hhi
  obtain hlt | rfl := Nat.lt_succ_iff_lt_or_eq.mp hhi
  · rw [hsame j hlo hlt,h j hlo hlt]
  · exact hx

theorem next (h : Filled σ m lo hi w) (hlo : lo + 16 ≤ hi) :
    σ.smallS1 (w (hi - 2)) + w (hi - 7) + σ.smallS0 (w (hi - 15)) + w (hi - 16) =
      schedule σ m hi := by
  rw [h (hi - 16) (by omega) (by omega),h (hi - 15) (by omega) (by omega),
    h (hi - 7) (by omega) (by omega),h (hi - 2) (by omega) (by omega),
    schedule_further σ m (by omega : 16 ≤ hi)]

theorem rounds (h : Filled σ m lo hi w) (v : Vars n) {count : Nat} (hlo : lo ≤ first)
    (hhi : first + count ≤ hi) : Sha2.rounds σ k w first count v =
      Sha2.rounds σ k (schedule σ m) first count v :=
  rounds_congr v fun i hi => h (first + i) (by omega) (by omega)

end Filled

end Sha2
