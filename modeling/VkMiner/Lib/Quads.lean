import Mathlib.Tactic.IntervalCases
import VkMiner.Lib.Loops
set_option autoImplicit false

/-! Arrays of words of 128 bits, each of them four places next to each other. -/

namespace Quads
open Loops

variable {m n j i : Nat} {w u : Words m}

def quad (a b c d : BitVec 32) : Words 4 := Words.ofList [a,b,c,d]

theorem quad_read (k : Words 4) : k = quad (k.read 0) (k.read 1) (k.read 2) (k.read 3) := by
  refine Words.ext _ _ fun i hi => ?_
  interval_cases i <;> rfl

def word (w : Words m) (n : Nat) : Words 4 :=
  upTo 4 (Words.zeros 4) fun i x => x.write i (w.read (4*n + i))

def putWord (w : Words m) (n : Nat) (x : Words 4) : Words m :=
  upTo 4 w fun i w => w.write (4*n + i) (x.read i)

/-- `v[first] ^= a; v[first + 1] ^= b; ..` -/
def xorAt (v : Words m) (first : Nat) (a b c d : BitVec 32) : Words m :=
  let v := v.write first (v.read first ^^^ a)
  let v := v.write (first + 1) (v.read (first + 1) ^^^ b)
  let v := v.write (first + 2) (v.read (first + 2) ^^^ c)
  v.write (first + 3) (v.read (first + 3) ^^^ d)

def xor4 (x y : Words 4) : Words 4 :=
  quad (x.read 0 ^^^ y.read 0) (x.read 1 ^^^ y.read 1) (x.read 2 ^^^ y.read 2)
    (x.read 3 ^^^ y.read 3)

theorem xor4_read (x y : Words 4) (hi : i < 4) : (xor4 x y).read i = x.read i ^^^ y.read i := by
  interval_cases i <;> rfl

theorem word_read (w : Words m) (n : Nat) (hi : i < 4) : (word w n).read i = w.read (4*n + i) :=
  Words.read_fill _ _ (Nat.le_refl 4) hi

theorem word_ext {k : Nat} {u : Words k} (h : ∀ i < 4,w.read (4*n + i) = u.read (4*j + i)) :
    word w n = word u j := by
  refine Words.ext _ _ fun i hi => ?_
  rw [word_read w n hi,word_read u j hi,h i hi]

theorem putWord_read (w : Words m) (n : Nat) (x : Words 4) (hn : 4*n + 4 ≤ m) (j : Nat) :
    (putWord w n x).read j = if 4*n ≤ j ∧ j < 4*n + 4 then x.read (j - 4*n) else w.read j := by
  rw [putWord,Words.read_run x.read w (4*n) hn]

theorem word_putWord (w : Words m) (n : Nat) (x : Words 4) (hn : 4*n + 4 ≤ m) :
    word (putWord w n x) n = x := by
  refine Words.ext _ _ fun i hi => ?_
  rw [word_read _ _ hi,putWord_read w n x hn,if_pos (by omega),Nat.add_sub_cancel_left]

theorem word_putWord_ne (w : Words m) (x : Words 4) (hn : 4*n + 4 ≤ m) (h : n ≠ j) :
    word (putWord w n x) j = word w j :=
  word_ext fun i hi => by rw [putWord_read w n x hn,if_neg (by omega)]

theorem ext_words (hm : m = 4*n) {u : Words m} (h : ∀ j < n,word w j = word u j) : w = u := by
  refine Words.ext _ _ fun p hp => ?_
  have hword := congrArg (Words.read · (p % 4)) (h (p / 4) (by omega))
  simp (disch := omega) only [word_read] at hword
  rwa [Nat.div_add_mod] at hword

theorem word_xorAt (v : Words m) (a b c d : BitVec 32) {p : Nat} (hp : p = 4*n)
    (hn : 4*n + 4 ≤ m) (j : Nat) : word (xorAt v p a b c d) j =
      if j = n then xor4 (word v n) (quad a b c d) else word v j := by
  subst hp
  by_cases h : j = n
  · rw [if_pos h,h]
    refine Words.ext _ _ fun i hi => ?_
    rw [word_read _ _ hi,xor4_read _ _ hi,word_read _ _ hi,xorAt]
    interval_cases i <;>
      simp (disch := omega) only [Words.read_write_self,Words.read_write_ne,Nat.add_zero] <;> rfl
  · rw [if_neg h]
    refine word_ext fun i hi => ?_
    simp (disch := omega) only [xorAt,Words.read_write_ne]

end Quads
