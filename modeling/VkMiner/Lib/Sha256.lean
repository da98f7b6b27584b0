import VkMiner.Lib.Loops
set_option autoImplicit false

/-! The compression function of SHA-256 over any table of constants, and arrays that hold a part of
its schedule. -/

namespace Sha256
open Loops

def rotr (x : BitVec 32) (n : Nat) : BitVec 32 := (x >>> n) ||| (x <<< (32 - n))

def ch (x y z : BitVec 32) : BitVec 32 := (x &&& y) ^^^ (~~~x &&& z)

def maj (x y z : BitVec 32) : BitVec 32 := (x &&& y) ^^^ (x &&& z) ^^^ (y &&& z)

def bigS0 (x : BitVec 32) : BitVec 32 := rotr x 2 ^^^ rotr x 13 ^^^ rotr x 22

def bigS1 (x : BitVec 32) : BitVec 32 := rotr x 6 ^^^ rotr x 11 ^^^ rotr x 25

def smallS0 (x : BitVec 32) : BitVec 32 := rotr x 7 ^^^ rotr x 18 ^^^ (x >>> 3)

def smallS1 (x : BitVec 32) : BitVec 32 := rotr x 17 ^^^ rotr x 19 ^^^ (x >>> 10)

structure Vars where
  a : BitVec 32
  b : BitVec 32
  c : BitVec 32
  d : BitVec 32
  e : BitVec 32
  f : BitVec 32
  g : BitVec 32
  h : BitVec 32
  deriving DecidableEq

namespace Vars

def step (k w : BitVec 32) (v : Vars) : Vars :=
  let t1 := v.h + bigS1 v.e + ch v.e v.f v.g + k + w
  let t2 := bigS0 v.a + maj v.a v.b v.c
  ⟨t1 + t2,v.a,v.b,v.c,v.d + t1,v.e,v.f,v.g⟩

def load (s : Words 8) : Vars :=
  ⟨s.read 0,s.read 1,s.read 2,s.read 3,s.read 4,s.read 5,s.read 6,s.read 7⟩

def feed (s : Words 8) (v : Vars) : Words 8 :=
  #v[s.read 0 + v.a,s.read 1 + v.b,s.read 2 + v.c,s.read 3 + v.d,
    s.read 4 + v.e,s.read 5 + v.f,s.read 6 + v.g,s.read 7 + v.h]

/-- What is added to the message word of a round is added to two of the variables. -/
theorem step_add (k w x : BitVec 32) (v : Vars) :
    v.step k (w + x) = { v.step k w with a := (v.step k w).a + x, e := (v.step k w).e + x } := by
  simp only [step,mk.injEq,and_true,true_and]
  constructor <;> ac_rfl

end Vars

variable {k w w' m m' : Nat → BitVec 32} {n lo hi first : Nat}

def rounds (k w : Nat → BitVec 32) (first n : Nat) (v : Vars) : Vars :=
  upTo n v fun i v => v.step (k (first + i)) (w (first + i))

theorem rounds_succ (k w : Nat → BitVec 32) (first n : Nat) (v : Vars) :
    rounds k w first (n + 1) v =
      (rounds k w first n v).step (k (first + n)) (w (first + n)) := rfl

theorem rounds_add (k w : Nat → BitVec 32) (first n n' : Nat) (v : Vars) :
    rounds k w first (n + n') v = rounds k w (first + n) n' (rounds k w first n v) := by
  induction n' with
  | zero => rfl
  | succ n' ih => rw [← Nat.add_assoc,rounds_succ,rounds_succ,ih,Nat.add_assoc]

theorem eights (k w : Nat → BitVec 32) (n : Nat) (v : Vars) :
    rounds k w n 8 (rounds k w 0 n v) = rounds k w 0 (n + 8) v := by
  rw [rounds_add k w 0 n 8 v,Nat.zero_add]

theorem rounds_congr (v : Vars) (h : ∀ i < n, w (first + i) = w' (first + i)) :
    rounds k w first n v = rounds k w' first n v :=
  upTo_congr v fun i hi v => by rw [h i hi]

theorem rounds_last (k w : Nat → BitVec 32) (first : Nat) (v : Vars) :
    (rounds k w first 4 v).h = v.d + (v.h + bigS1 v.e + ch v.e v.f v.g + k first + w first) := rfl

def schedule (m : Nat → BitVec 32) (i : Nat) : BitVec 32 :=
  if i < 16 then m i
  else
    schedule m (i - 16) + smallS0 (schedule m (i - 15)) + schedule m (i - 7) +
      smallS1 (schedule m (i - 2))
termination_by i

theorem schedule_block (m : Nat → BitVec 32) {i : Nat} (hi : i < 16) : schedule m i = m i := by
  rw [schedule,if_pos hi]

theorem schedule_further (m : Nat → BitVec 32) {i : Nat} (hi : 16 ≤ i) :
    schedule m i = schedule m (i - 16) + smallS0 (schedule m (i - 15)) + schedule m (i - 7) +
      smallS1 (schedule m (i - 2)) := by
  rw [schedule,if_neg (Nat.not_lt.mpr hi)]

theorem schedule_congr (h : ∀ i < 16, m i = m' i) (i : Nat) : schedule m i = schedule m' i := by
  induction i using Nat.strong_induction_on with
  | _ i ih =>
    by_cases hi : i < 16
    · rw [schedule_block m hi,schedule_block m' hi,h i hi]
    · have hi := Nat.not_lt.mp hi
      rw [schedule_further m hi,schedule_further m' hi,ih (i - 16) (by omega),
        ih (i - 15) (by omega),ih (i - 7) (by omega),ih (i - 2) (by omega)]

def compress (k m : Nat → BitVec 32) (s : Words 8) : Words 8 :=
  (rounds k (schedule m) 0 64 (.load s)).feed s

theorem compress_congr (h : ∀ i < 16, m i = m' i) (s : Words 8) :
    compress k m s = compress k m' s := by
  rw [compress,compress,rounds_congr (.load s) fun i _ => schedule_congr h (0 + i)]

/-! ### Arrays of the schedule -/

def Filled (m : Nat → BitVec 32) (lo hi : Nat) (w : Words n) : Prop :=
  ∀ j, lo ≤ j → j < hi → w.read j = schedule m j

def extend (w : Words n) (i : Nat) : Words n :=
  w.write i (w.read (i - 16) + smallS0 (w.read (i - 15)) + w.read (i - 7) +
    smallS1 (w.read (i - 2)))

namespace Filled
variable {w : Words n}

theorem write (h : Filled m lo hi w) {x : BitVec 32} (hn : hi < n) (hx : x = schedule m hi) :
    Filled m lo (hi + 1) (w.write hi x) := by
  intro j hlo hhi
  obtain rfl | hne := eq_or_ne hi j
  · rw [Words.read_write_self w x hn,hx]
  · rw [Words.read_write_ne w x hne]
    exact h j hlo (by omega)

theorem extend (h : Filled m lo hi w) (hlo : lo + 16 ≤ hi) (hn : hi < n) :
    Filled m lo (hi + 1) (extend w hi) := by
  refine h.write hn ?_
  rw [h (hi - 16) (by omega) (by omega),h (hi - 15) (by omega) (by omega),
    h (hi - 7) (by omega) (by omega),h (hi - 2) (by omega) (by omega),
    schedule_further m (by omega : 16 ≤ hi)]

theorem fill (h : Filled m lo hi w) (f : Nat → BitVec 32) {c : Nat} (hn : hi + c ≤ n)
    (hf : ∀ i < c, f i = schedule m (hi + i)) :
    Filled m lo (hi + c) (upTo c w fun i w => w.write (hi + i) (f i)) := by
  induction c with
  | zero => exact h
  | succ c ih =>
    have hc := ih (by omega) fun i hi => hf i (by omega)
    exact hc.write (by omega) (hf c (Nat.lt_succ_self c))

theorem expand (h : Filled m lo hi w) (hlo : lo + 16 ≤ hi) {c : Nat} (hn : hi + c ≤ n) :
    Filled m lo (hi + c) (upTo c w fun i w => Sha256.extend w (hi + i)) := by
  induction c with
  | zero => exact h
  | succ c ih => exact (ih (by omega)).extend (by omega) (by omega)

theorem rounds (h : Filled m lo hi w) (v : Vars) {c : Nat} (hlo : lo ≤ first)
    (hhi : first + c ≤ hi) : Sha256.rounds k w.read first c v =
      Sha256.rounds k (schedule m) first c v :=
  rounds_congr v fun i hi => h (first + i) (by omega) (by omega)

end Filled

end Sha256
