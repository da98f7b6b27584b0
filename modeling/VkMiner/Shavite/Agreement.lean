import VkMiner.Aes.Agreement
import VkMiner.Shavite.Host
import VkMiner.Shavite.Kernel
set_option autoImplicit false

/-! The keys that are made in place are the words of the whole schedule, so both compressions are
the same. -/

namespace VkMiner.Shavite
open Loops Quads
open Sha256d (Word Byte leWordAt)
open Aes (aesRoundLe keyed word_keyed word_aesRound2)
open Aes.Glsl (Form aesRound2)
open Glsl (shavite512NextKeys)

/-! ### One block of the schedule -/

def turned (x : Words 4) : Words 4 := quad (x.read 1) (x.read 2) (x.read 3) (x.read 0)

def mixed (cnt : Words 4) (u : Nat) (x : Words 4) : Words 4 :=
  if u = 32 then xor4 x (quad (cnt.read 0) (cnt.read 1) (cnt.read 2) (~~~cnt.read 3))
  else if u = 164 then xor4 x (quad (cnt.read 3) (cnt.read 2) (cnt.read 1) (~~~cnt.read 0))
  else if u = 316 then xor4 x (quad (cnt.read 2) (cnt.read 3) (cnt.read 0) (~~~cnt.read 1))
  else if u = 440 then xor4 x (quad (cnt.read 1) (cnt.read 0) (cnt.read 3) (~~~cnt.read 2))
  else x

def chained (cnt : Words 4) (b : Nat) (k : Words 32) : Nat → Words 4
  | 0 => mixed cnt (32*b) (xor4 (aesRoundLe (turned (word k 0)) none) (word k 7))
  | q + 1 => mixed cnt (32*b + 4*(q + 1))
      (xor4 (aesRoundLe (turned (word k (q + 1))) none) (chained cnt b k q))

section Kernel

variable (form : Form) (k n : Words 32) (cnt : Words 4) {b q : Nat}

/-- The two quarters of the old block that go through a round together. -/
def gathered (q : Nat) : Words 8 :=
  let x := Words.zeros 8
  let x := ((x.write 0 (k.read (4*q + 1))).write 1 (k.read (4*q + 2))).write 2 (k.read (4*q + 3))
  let x := (x.write 3 (k.read (4*q))).write 4 (k.read (4*q + 5))
  ((x.write 5 (k.read (4*q + 6))).write 6 (k.read (4*q + 7))).write 7 (k.read (4*q + 4))

theorem word_gathered {c : Nat} (hc : c < 2) : word (gathered k q) c = turned (word k (q + c)) := by
  refine Words.ext _ _ fun i hi => ?_
  rw [word_read _ _ hi,turned,word_read _ _ (by decide),word_read _ _ (by decide),
    word_read _ _ (by decide),word_read _ _ (by decide),gathered]
  have hplace : 4*(q + 1) = 4*q + 4 := by omega
  interval_cases c <;> interval_cases i <;>
    simp (disch := decide) only [Words.read_write_self,Words.read_write_ne,Nat.reduceMul,
      Nat.reduceAdd,Nat.add_zero,hplace,Nat.add_assoc] <;> rfl

theorem word_nonlinearPair (hq : q % 2 = 0 ∧ q < 8) (j : Nat) :
    word (Glsl.nonlinearPair form k q n) j =
      if j = q ∨ j = q + 1 then aesRoundLe (turned (word k j)) none else word n j := by
  have hpair : Glsl.nonlinearPair form k q n =
      upTo 8 n fun i n => n.write (4*q + i) ((aesRound2 form (gathered k q)).read i) := rfl
  have hrun := Words.read_run (aesRound2 form (gathered k q)).read n (4*q) (by omega : 4*q + 8 ≤ 32)
  have hround (c : Nat) (hc : c < 2) := word_aesRound2 form (gathered k q) hc
  rw [hpair]
  by_cases h : j = q ∨ j = q + 1
  · obtain ⟨c,hc,rfl⟩ : ∃ c,c < 2 ∧ j = q + c := ⟨j - q,by omega,by omega⟩
    rw [if_pos h,← word_gathered k hc,← hround c hc]
    refine word_ext fun i hi => ?_
    rw [hrun,if_pos (by omega),show 4*(q + c) + i - 4*q = 4*c + i from by omega]
  · rw [if_neg h]
    refine word_ext fun i hi => ?_
    rw [hrun,if_neg (by omega)]

theorem word_nonlinear (hq : q < 8) :
    word (upTo 4 (Words.zeros 32) fun j n => Glsl.nonlinearPair form k (2*j) n) q =
      aesRoundLe (turned (word k q)) none := by
  refine upTo_sets (fun n : Words 32 => word n q) _ (by omega : q / 2 < 4) (fun n => ?_)
    fun j hj hj' n => ?_
  · rw [word_nonlinearPair form k n (by omega),if_pos (by omega)]
  · rw [word_nonlinearPair form k n (by omega),if_neg (by omega)]

theorem word_chainStep (hq : 0 < q ∧ q < 8) (j : Nat) :
    word (upTo 4 n fun i n => n.write (4*q + i) (n.read (4*q + i) ^^^ n.read (4*q - 4 + i))) j =
      if j = q then xor4 (word n q) (word n (q - 1)) else word n j := by
  have hrun := Words.read_update (f := fun i u => u.read (4*q + i) ^^^ u.read (4*q - 4 + i))
    (g := fun i => n.read (4*q + i) ^^^ n.read (4*q - 4 + i)) n (4*q) (by omega : 4*q + 4 ≤ 32)
    fun i hi u hu => by rw [hu _ (by omega),hu _ (by omega)]
  by_cases h : j = q
  · rw [if_pos h,h]
    refine Words.ext _ _ fun i hi => ?_
    rw [word_read _ _ hi,hrun,if_pos (by omega),Nat.add_sub_cancel_left,xor4_read _ _ hi,
      word_read _ _ hi,word_read _ _ hi,show 4*(q - 1) = 4*q - 4 from by omega]
  · rw [if_neg h]
    refine word_ext fun i hi => ?_
    rw [hrun,if_neg (by omega)]

theorem word_counted (hq : q < 8) (j : Nat) :
    word (if 32*b + 4*q = 32 then
        xorAt n 0 (cnt.read 0) (cnt.read 1) (cnt.read 2) (~~~cnt.read 3)
      else if 32*b + 4*q = 164 then
        xorAt n 4 (cnt.read 3) (cnt.read 2) (cnt.read 1) (~~~cnt.read 0)
      else if 32*b + 4*q = 316 then
        xorAt n 28 (cnt.read 2) (cnt.read 3) (cnt.read 0) (~~~cnt.read 1)
      else if 32*b + 4*q = 440 then
        xorAt n 24 (cnt.read 1) (cnt.read 0) (cnt.read 3) (~~~cnt.read 2)
      else n) j = if j = q then mixed cnt (32*b + 4*q) (word n q) else word n j := by
  rw [mixed]
  by_cases h₁ : 32*b + 4*q = 32
  · rw [if_pos h₁,if_pos h₁,word_xorAt n _ _ _ _ (by omega : 0 = 4*q) (by omega)]
  · rw [if_neg h₁,if_neg h₁]
    by_cases h₂ : 32*b + 4*q = 164
    · rw [if_pos h₂,if_pos h₂,word_xorAt n _ _ _ _ (by omega : 4 = 4*q) (by omega)]
    · rw [if_neg h₂,if_neg h₂]
      by_cases h₃ : 32*b + 4*q = 316
      · rw [if_pos h₃,if_pos h₃,word_xorAt n _ _ _ _ (by omega : 28 = 4*q) (by omega)]
      · rw [if_neg h₃,if_neg h₃]
        by_cases h₄ : 32*b + 4*q = 440
        · rw [if_pos h₄,if_pos h₄,word_xorAt n _ _ _ _ (by omega : 24 = 4*q) (by omega)]
        · rw [if_neg h₄,if_neg h₄]
          by_cases h : j = q
          · rw [if_pos h,h]
          · rw [if_neg h]

theorem word_chainQuarter (hq : q < 8) (j : Nat) : word (Glsl.chainQuarter cnt b q n) j =
    if j = q then
      mixed cnt (32*b + 4*q) (if 0 < q then xor4 (word n q) (word n (q - 1)) else word n q)
    else word n j := by
  rw [Glsl.chainQuarter]
  by_cases hpos : 0 < q
  · rw [if_pos hpos,if_pos hpos,word_counted _ cnt hq j,word_chainStep n ⟨hpos,hq⟩,if_pos rfl,
      word_chainStep n ⟨hpos,hq⟩]
    by_cases h : j = q
    · rw [if_pos h,if_pos h]
    · rw [if_neg h,if_neg h,if_neg h]
  · rw [if_neg hpos,if_neg hpos,word_counted _ cnt hq j]

theorem word_wrapped (j : Nat) :
    word (upTo 4 n fun i n => n.write i (n.read i ^^^ k.read (28 + i))) j =
      if j = 0 then xor4 (word n 0) (word k 7) else word n j := by
  have hrun := Words.read_update (f := fun i u => u.read i ^^^ k.read (28 + i))
    (g := fun i => n.read i ^^^ k.read (28 + i)) n 0 (by decide : 0 + 4 ≤ 32)
    fun i hi u hu => by rw [hu _ (by omega)]
  simp only [Nat.zero_add] at hrun
  by_cases h : j = 0
  · rw [if_pos h,h]
    refine Words.ext _ _ fun i hi => ?_
    rw [word_read _ _ hi,hrun,if_pos (by omega),xor4_read _ _ hi,word_read _ _ hi,word_read _ _ hi]
    simp only [Nat.mul_zero,Nat.zero_add,Nat.sub_zero,Nat.reduceMul]
  · rw [if_neg h]
    refine word_ext fun i hi => ?_
    rw [hrun,if_neg (by omega)]

/-- After so many passes the quarters below are chained, the others as they were. -/
theorem word_chain (h₀ : word n 0 = xor4 (aesRoundLe (turned (word k 0)) none) (word k 7))
    (hs : ∀ q,0 < q → q < 8 → word n q = aesRoundLe (turned (word k q)) none) {m : Nat} (hm : m ≤ 8) :
    ∀ q < 8,word (upTo m n fun q n => Glsl.chainQuarter cnt b q n) q =
      if q < m then chained cnt b k q else word n q := by
  induction m with
  | zero =>
    intro q hq
    rw [upTo,if_neg (Nat.not_lt_zero q)]
  | succ m ih =>
    intro q hq
    have ih := ih (by omega)
    rw [upTo,word_chainQuarter _ cnt (by omega)]
    by_cases h : q = m
    · subst h
      rw [if_pos rfl,if_pos (Nat.lt_succ_self q),ih q hq,if_neg (Nat.lt_irrefl q)]
      cases q with
      | zero => rw [if_neg (Nat.lt_irrefl 0),h₀,chained,Nat.mul_zero,Nat.add_zero]
      | succ q =>
        have hbefore := ih q (by omega)
        rw [if_pos (Nat.lt_succ_self q)] at hbefore
        rw [if_pos (Nat.succ_pos q),Nat.add_sub_cancel,hbefore,hs _ (Nat.succ_pos q) hq,chained]
    · rw [if_neg h,ih q hq]
      simp only [show q < m + 1 ↔ q < m by omega]

theorem word_nextKeys_odd (hb : b % 2 = 1) (hq : q < 8) :
    word (shavite512NextKeys form k b cnt) q = chained cnt b k q := by
  have hand : b &&& 1 = 1 := (Nat.and_one_is_mod b).trans hb
  rw [shavite512NextKeys,if_pos hand]
  refine (word_chain k _ cnt ?_ (fun q hpos hq => ?_) (Nat.le_refl 8) q hq).trans (if_pos hq)
  · rw [word_wrapped,if_pos rfl,word_nonlinear form k (by decide)]
  · rw [word_wrapped,if_neg (by omega),word_nonlinear form k hq]

/-- Every word of a linear block is made of one of the old block and of the seventh before it. -/
theorem nextKeys_even (hb : b % 2 = 0) {i : Nat} (hi : i < 32) :
    (shavite512NextKeys form k b cnt).read i = k.read i ^^^
      (if i < 7 then k.read (25 + i) else (shavite512NextKeys form k b cnt).read (i - 7)) := by
  have hand : ¬b &&& 1 = 1 := by
    rw [Nat.and_one_is_mod,hb]
    decide
  rw [shavite512NextKeys,if_neg hand]
  let filled (m : Nat) : Words 32 := upTo m (Words.zeros 32) fun i n =>
    n.write i (k.read i ^^^ (if i < 7 then k.read (25 + i) else n.read (i - 7)))
  suffices h : ∀ m ≤ 32,∀ i < m,(filled m).read i = k.read i ^^^
      (if i < 7 then k.read (25 + i) else (filled m).read (i - 7)) from h 32 (Nat.le_refl 32) i hi
  intro m hm
  induction m with
  | zero => intro i hi; omega
  | succ m ih =>
    intro i hi
    have ih := ih (by omega)
    have hnext : filled (m + 1) = (filled m).write m (k.read m ^^^
        (if m < 7 then k.read (25 + m) else (filled m).read (m - 7))) := rfl
    rw [hnext]
    generalize filled m = n at ih ⊢
    have hback : (if i < 7 then k.read (25 + i) else (n.write m (k.read m ^^^
        (if m < 7 then k.read (25 + m) else n.read (m - 7)))).read (i - 7)) =
          if i < 7 then k.read (25 + i) else n.read (i - 7) := by
      split
      · rfl
      · exact Words.read_write_ne _ _ (by omega)
    rw [hback]
    obtain rfl | hlt := Nat.eq_or_lt_of_le (Nat.le_of_lt_succ hi)
    · exact Words.read_write_self _ _ (by omega)
    · rw [Words.read_write_ne _ _ (by omega),ih i hlt]

end Kernel

/-! ### The schedule -/

section Host

variable (cnt : Words 4) (rk : Words 448) {n j : Nat}

theorem word_mixCounter : word (mixCounter cnt (4*n) rk) j =
    if j = n then mixed cnt (4*n) (word rk n) else word rk j := by
  rw [mixCounter,mixed]
  by_cases h₁ : 4*n = 32
  · rw [if_pos h₁,if_pos h₁,word_xorAt rk _ _ _ _ h₁.symm (by omega)]
  · rw [if_neg h₁,if_neg h₁]
    by_cases h₂ : 4*n = 164
    · rw [if_pos h₂,if_pos h₂,word_xorAt rk _ _ _ _ h₂.symm (by omega)]
    · rw [if_neg h₂,if_neg h₂]
      by_cases h₃ : 4*n = 316
      · rw [if_pos h₃,if_pos h₃,word_xorAt rk _ _ _ _ h₃.symm (by omega)]
      · rw [if_neg h₃,if_neg h₃]
        by_cases h₄ : 4*n = 440
        · rw [if_pos h₄,if_pos h₄,word_xorAt rk _ _ _ _ h₄.symm (by omega)]
        · rw [if_neg h₄,if_neg h₄]
          by_cases h : j = n
          · rw [if_pos h,h]
          · rw [if_neg h]

theorem word_nonlinearQuarter (hn : 8 ≤ n ∧ n < 112) :
    word (nonlinearQuarter cnt ⟨rk,4*n⟩).rk j =
      if j = n then mixed cnt (4*n)
        (xor4 (aesRoundLe (turned (word rk (n - 8))) none) (word rk (n - 1)))
      else word rk j := by
  have hturned : quad (rk.read (4*n - 31)) (rk.read (4*n - 30)) (rk.read (4*n - 29))
      (rk.read (4*n - 32)) = turned (word rk (n - 8)) := by
    rw [turned,word_read _ _ (by decide),word_read _ _ (by decide),word_read _ _ (by decide),
      word_read _ _ (by decide),show 4*n - 31 = 4*(n - 8) + 1 from by omega,
      show 4*n - 30 = 4*(n - 8) + 2 from by omega,show 4*n - 29 = 4*(n - 8) + 3 from by omega,
      show 4*n - 32 = 4*(n - 8) + 0 from by omega]
  rw [nonlinearQuarter,hturned]
  generalize aesRoundLe (turned (word rk (n - 8))) none = x
  have hrun := Words.read_update (f := fun i u => x.read i ^^^ u.read (4*n - 4 + i))
    (g := fun i => x.read i ^^^ rk.read (4*n - 4 + i)) rk (4*n) (by omega : 4*n + 4 ≤ 448)
    fun i hi u hu => by rw [hu _ (by omega)]
  rw [word_mixCounter cnt]
  by_cases h : j = n
  · rw [if_pos h,if_pos h]
    refine congrArg _ (Words.ext _ _ fun i hi => ?_)
    rw [word_read _ _ hi,hrun,if_pos (by omega),xor4_read _ _ hi,word_read _ _ hi,
      Nat.add_sub_cancel_left,show 4*(n - 1) = 4*n - 4 from by omega]
  · rw [if_neg h,if_neg h]
    refine word_ext fun i hi => ?_
    rw [hrun,if_neg (by omega)]

theorem linearQuarter_read (u p : Nat) (hu : 32 ≤ u ∧ u + 4 ≤ 448) :
    (linearQuarter ⟨rk,u⟩).rk.read p =
      if u ≤ p ∧ p < u + 4 then rk.read (p - 32) ^^^ rk.read (p - 7) else rk.read p := by
  rw [linearQuarter]
  by_cases h : u ≤ p ∧ p < u + 4
  · rw [if_pos h]
    obtain ⟨i,hi,rfl⟩ : ∃ i,i < 4 ∧ p = u + i := ⟨p - u,by omega,by omega⟩
    interval_cases i <;>
      simp (disch := omega) only [Words.read_write_self,Words.read_write_ne] <;>
      simp only [Nat.add_zero,show u + 1 - 32 = u - 31 by omega,show u + 1 - 7 = u - 6 by omega,
        show u + 2 - 32 = u - 30 by omega,show u + 2 - 7 = u - 5 by omega,
        show u + 3 - 32 = u - 29 by omega,show u + 3 - 7 = u - 4 by omega]
  · rw [if_neg h]
    simp (disch := omega) only [Words.read_write_ne]

end Host

section Expansion

variable (form : Form) (m : Words 32) (cnt : Words 4)

def keys : Nat → Words 32
  | 0 => m
  | b + 1 => shavite512NextKeys form (keys b) (b + 1) cnt

def Filled (b : Nat) (rk : Words 448) : Prop :=
  ∀ c ≤ b,∀ i < 32,rk.read (32*c + i) = (keys form m cnt c).read i

theorem Filled.word {b : Nat} {rk : Words 448} (h : Filled form m cnt b rk) {c q : Nat} (hc : c ≤ b)
    (hq : q < 8) : Quads.word rk (8*c + q) = Quads.word (keys form m cnt c) q :=
  word_ext fun i hi => by
    rw [show 4*(8*c + q) + i = 32*c + (4*q + i) from by omega,h c hc _ (by omega)]

theorem nonlinear_block {b : Nat} {rk : Words 448} (h : Filled form m cnt b rk) (hb : b % 2 = 0)
    (hlt : b < 13) : ∃ rk',(upTo 8 ⟨rk,32*(b + 1)⟩ fun _ s => nonlinearQuarter cnt s) =
      ⟨rk',32*(b + 2)⟩ ∧ Filled form m cnt (b + 1) rk' := by
  suffices hrun : ∀ n ≤ 8,∃ rk',(upTo n ⟨rk,32*(b + 1)⟩ fun _ s => nonlinearQuarter cnt s) =
      ⟨rk',4*(8*(b + 1) + n)⟩ ∧ (∀ j < 8*(b + 1),word rk' j = word rk j) ∧
        ∀ q < n,word rk' (8*(b + 1) + q) = chained cnt (b + 1) (keys form m cnt b) q by
    obtain ⟨rk',hs,hold,hnew⟩ := hrun 8 (Nat.le_refl 8)
    refine ⟨rk',hs.trans (by rw [show 4*(8*(b + 1) + 8) = 32*(b + 2) from by omega]),?_⟩
    intro c hc i hi
    have hplace : 32*c + i = 4*(8*c + i / 4) + i % 4 := by omega
    have hlt : i % 4 < 4 := Nat.mod_lt _ (by decide)
    rw [hplace,← word_read _ _ hlt]
    obtain hc | rfl := Nat.lt_or_eq_of_le hc
    · rw [hold _ (by omega),h.word form m cnt (by omega) (by omega),word_read _ _ hlt,Nat.div_add_mod]
    · rw [hnew _ (by omega),← word_nextKeys_odd form _ cnt (by omega) (by omega),word_read _ _ hlt,
        Nat.div_add_mod,keys]
  intro n hn
  induction n with
  | zero => exact ⟨rk,by rw [upTo,show 32*(b + 1) = 4*(8*(b + 1) + 0) from by omega],fun _ _ => rfl,
      fun q hq => absurd hq (Nat.not_lt_zero q)⟩
  | succ n ih =>
    obtain ⟨rk',hs,hold,hnew⟩ := ih (by omega)
    have hword (j : Nat) := word_nonlinearQuarter cnt rk' (n := 8*(b + 1) + n) (j := j) (by omega)
    refine ⟨(nonlinearQuarter cnt ⟨rk',4*(8*(b + 1) + n)⟩).rk,?_,?_,?_⟩
    · rw [upTo,hs]
      rfl
    · intro j hj
      rw [hword,if_neg (by omega),hold j hj]
    · intro q hq
      obtain hlt | rfl := Nat.lt_or_eq_of_le (Nat.le_of_lt_succ hq)
      · rw [hword,if_neg (by omega),hnew q hlt]
      · rw [hword,if_pos rfl,hold _ (by omega),show 8*(b + 1) + q - 8 = 8*b + q from by omega,
          h.word form m cnt (Nat.le_refl b) (by omega),show 4*(8*(b + 1) + q) = 32*(b + 1) + 4*q from by omega]
        cases q with
        | zero =>
          rw [hold _ (by omega),show 8*(b + 1) + 0 - 1 = 8*b + 7 from by omega,
            h.word form m cnt (Nat.le_refl b) (by omega),chained,Nat.mul_zero,Nat.add_zero]
        | succ q =>
          rw [show 8*(b + 1) + (q + 1) - 1 = 8*(b + 1) + q from by omega,
            hnew q (Nat.lt_succ_self q),chained]

theorem linear_block {b : Nat} {rk : Words 448} (h : Filled form m cnt b rk) (hb : b % 2 = 1)
    (hlt : b < 13) : ∃ rk',(upTo 8 ⟨rk,32*(b + 1)⟩ fun _ s => linearQuarter s) =
      ⟨rk',32*(b + 2)⟩ ∧ Filled form m cnt (b + 1) rk' := by
  suffices hrun : ∀ n ≤ 8,∃ rk',(upTo n ⟨rk,32*(b + 1)⟩ fun _ s => linearQuarter s) =
      ⟨rk',32*(b + 1) + 4*n⟩ ∧ (∀ p < 32*(b + 1),rk'.read p = rk.read p) ∧
        ∀ i < 4*n,rk'.read (32*(b + 1) + i) = (keys form m cnt (b + 1)).read i by
    obtain ⟨rk',hs,hold,hnew⟩ := hrun 8 (Nat.le_refl 8)
    refine ⟨rk',hs,fun c hc i hi => ?_⟩
    obtain hc | rfl := Nat.lt_or_eq_of_le hc
    · rw [hold _ (by omega),h c (by omega) i hi]
    · exact hnew i hi
  intro n hn
  induction n with
  | zero => exact ⟨rk,rfl,fun _ _ => rfl,fun i hi => absurd hi (Nat.not_lt_zero i)⟩
  | succ n ih =>
    obtain ⟨rk',hs,hold,hnew⟩ := ih (by omega)
    have hread (p : Nat) := linearQuarter_read rk' (32*(b + 1) + 4*n) p (by omega)
    refine ⟨(linearQuarter ⟨rk',32*(b + 1) + 4*n⟩).rk,?_,?_,?_⟩
    · rw [upTo,hs]
      rfl
    · intro p hp
      rw [hread,if_neg (by omega),hold p hp]
    · intro i hi
      by_cases hlow : i < 4*n
      · rw [hread,if_neg (by omega),hnew i hlow]
      · have hkeys := nextKeys_even form (keys form m cnt b) cnt (b := b + 1) (by omega)
          (by omega : i < 32)
        rw [hread,if_pos (by omega),keys,hkeys,hold _ (by omega),
          show 32*(b + 1) + i - 32 = 32*b + i from by omega,h b (Nat.le_refl b) i (by omega)]
        refine congrArg _ ?_
        by_cases h₇ : i < 7
        · rw [if_pos h₇,hold _ (by omega),show 32*(b + 1) + i - 7 = 32*b + (25 + i) from by omega,
            h b (Nat.le_refl b) _ (by omega)]
        · rw [if_neg h₇,show 32*(b + 1) + i - 7 = 32*(b + 1) + (i - 7) from by omega,
            hnew _ (by omega),keys]

theorem expandLoop_some {n b : Nat} {rk : Words 448} (h : Filled form m cnt b rk) (hb : b % 2 = 0)
    (hlt : b < 13) (hn : 13 ≤ b + n) :
    ∃ s,expandLoop cnt n ⟨rk,32*(b + 1)⟩ = some s ∧ Filled form m cnt 13 s.rk := by
  induction n generalizing b rk with
  | zero => omega
  | succ n ih =>
    obtain ⟨rk₁,hs₁,h₁⟩ := nonlinear_block form m cnt h hb hlt
    rw [expandLoop,hs₁]
    by_cases hlast : b = 12
    · subst hlast
      exact ⟨⟨rk₁,448⟩,rfl,h₁⟩
    · obtain ⟨rk₂,hs₂,h₂⟩ := linear_block form m cnt h₁ (by omega) (by omega)
      have hmore : ¬32*(b + 2) = 448 := by omega
      obtain ⟨s,hs,hfilled⟩ := ih h₂ (by omega) (by omega) (by omega)
      refine ⟨s,?_,hfilled⟩
      simp only [hmore,if_false]
      rw [hs₂,← hs]

end Expansion

/-! ### The rounds -/

def feistel (x : Words 4) (k : Nat → Words 4) : Words 4 :=
  aesRoundLe (aesRoundLe (aesRoundLe (aesRoundLe (xor4 x (k 0)) (some (k 1))) (some (k 2)))
    (some (k 3))) none

theorem aesRoundLe_some (y key : Words 4) : aesRoundLe y (some key) = xor4 (aesRoundLe y none) key := by
  refine Words.ext _ _ fun i hi => ?_
  rw [Aes.aesRoundLe_key y key hi,xor4_read _ _ hi]

section Host

variable (rk : Words 448) (p : Words 16)

theorem keyAt_word (n : Nat) : keyAt rk (4*n) = word rk n := by
  rw [quad_read (word rk n),word_read _ _ (by decide),word_read _ _ (by decide),
    word_read _ _ (by decide),word_read _ _ (by decide)]
  rfl

theorem takeF_eq (n q : Nat) : takeF rk ⟨p,4*n⟩ q =
    ⟨putWord p q (xor4 (word p q) (feistel (word p (q + 1)) fun j => word rk (n + j))),
      4*(n + 4)⟩ := by
  have hkey (j : Nat) : keyAt rk (4*n + 4*j) = word rk (n + j) := by
    rw [← Nat.mul_add,keyAt_word]
  have h₁ := hkey 1
  have h₂ := hkey 2
  have h₃ := hkey 3
  simp only [Nat.mul_one,Nat.reduceMul] at h₁ h₂ h₃
  simp only [takeF,upTo,keyedRound,feistel,Nat.add_assoc,Nat.reduceAdd,h₁,h₂,h₃,keyAt_word,
    Nat.add_zero,Nat.mul_add,Nat.reduceMul]

theorem word_rotated {j : Nat} (hj : j < 4) : word (rotated p) j = word p ((j + 3) % 4) := by
  rw [rotated]
  interval_cases j <;>
    simp (disch := decide) only [word_putWord,word_putWord_ne,Nat.reduceAdd,Nat.reduceMod]

end Host

section Kernel

variable (form : Form) (k : Words 32) (p : Words 16)

theorem xorKeys_eq (a b : Nat) (x : Words 8) :
    Glsl.xorKeys k (4*a) (4*b) x = keyed x (word k a) (word k b) :=
  upTo_congr x fun i hi x => by simp only [word_read k _ hi]

theorem word_keyedRound (x : Words 8) (a b : Nat) {c : Nat} (hc : c < 2) :
    word (Glsl.xorKeys k (4*a) (4*b) (aesRound2 form x)) c =
      aesRoundLe (word x c) (some (word k (if c = 0 then a else b))) := by
  rw [xorKeys_eq,aesRoundLe_some]
  refine Words.ext _ _ fun i hi => ?_
  rw [word_keyed _ _ _ hc hi,word_aesRound2 form x hc,xor4_read _ _ hi,apply_ite (word k)]

theorem word_sideBySide {c : Nat} (hc : c < 2) : word (Glsl.sideBySide form k p) c =
    feistel (word p (2*c + 1)) fun j => word k (4*c + j) := by
  let start : Words 8 := upTo 4 (Words.zeros 8) fun i x =>
    (x.write i (p.read (4 + i) ^^^ k.read i)).write (4 + i) (p.read (12 + i) ^^^ k.read (16 + i))
  have hstart : word start c = xor4 (word p (2*c + 1)) (word k (4*c)) := by
    refine Words.ext _ _ fun i hi => ?_
    rw [word_read _ _ hi,xor4_read _ _ hi,word_read _ _ hi,word_read _ _ hi]
    interval_cases c <;> interval_cases i <;>
      simp (disch := decide) only [start,upTo,Words.read_write_self,Words.read_write_ne,
        Nat.reduceAdd,Nat.reduceMul]
  have hround (x : Words 8) (j : Nat) : word (Glsl.xorKeys k (4*(j + 1)) (16 + 4*(j + 1))
      (aesRound2 form x)) c = aesRoundLe (word x c) (some (word k (4*c + (j + 1)))) := by
    rw [show 16 + 4*(j + 1) = 4*(4 + (j + 1)) from by omega,word_keyedRound form k x _ _ hc]
    interval_cases c
    · rw [if_pos rfl,Nat.mul_zero,Nat.zero_add]
    · rw [if_neg (by decide),Nat.mul_one]
  rw [Glsl.sideBySide,word_aesRound2 form _ hc,upTo,upTo,upTo,upTo,hround,hround,hround]
  rw [show upTo 4 (Words.zeros 8) _ = start from rfl,hstart,feistel]
  rfl

theorem word_glsl_rotated {j : Nat} (hj : j < 4) :
    word (Glsl.rotated p) j = word p ((j + 3) % 4) := by
  refine word_ext fun i hi => ?_
  rw [Glsl.rotated]
  interval_cases j <;> interval_cases i <;>
    simp (disch := decide) only [upTo,Words.read_write_self,Words.read_write_ne,Nat.reduceAdd,
      Nat.reduceMul,Nat.reduceMod]

def taken (x : Words 8) : Words 16 :=
  upTo 4 p fun i p =>
    let p := p.write i (p.read i ^^^ x.read i)
    p.write (8 + i) (p.read (8 + i) ^^^ x.read (4 + i))

theorem word_taken (x : Words 8) {j : Nat} (hj : j < 4) : word (taken p x) j =
    if j % 2 = 0 then xor4 (word p j) (word x (j / 2)) else word p j := by
  refine Words.ext _ _ fun i hi => ?_
  rw [word_read _ _ hi,taken]
  by_cases h : j % 2 = 0
  · rw [if_pos h,xor4_read _ _ hi,word_read _ _ hi,word_read _ _ hi]
    obtain rfl | rfl : j = 0 ∨ j = 2 := by omega
    · interval_cases i <;>
        simp (disch := decide) only [upTo,Words.read_write_self,Words.read_write_ne,Nat.reduceAdd,
          Nat.reduceMul,Nat.reduceDiv]
    · interval_cases i <;>
        simp (disch := decide) only [upTo,Words.read_write_self,Words.read_write_ne,Nat.reduceAdd,
          Nat.reduceMul,Nat.reduceDiv]
  · rw [if_neg h,word_read _ _ hi]
    simp (disch := omega) only [upTo,Words.read_write_ne]

theorem word_bothTaken (rk : Words 448) (r : Nat) (hk : ∀ q < 8,word rk (8*r + q) = word k q)
    {j : Nat} (hj : j < 4) : word (takeF rk (takeF rk ⟨p,32*r⟩ 0) 2).p j =
      if j % 2 = 0 then xor4 (word p j) (word (Glsl.sideBySide form k p) (j / 2)) else word p j := by
  have hf (q : Nat) (c : Nat) (hc : c < 2) (hq : q = 2*c + 1) :
      (feistel (word p q) fun j => word rk (8*r + 4*c + j)) = word (Glsl.sideBySide form k p) c := by
    rw [word_sideBySide form k p hc,hq,feistel,feistel,Nat.add_assoc,hk _ (by omega),Nat.add_assoc,
      hk _ (by omega),Nat.add_assoc,hk _ (by omega),Nat.add_assoc,hk _ (by omega)]
  have h₂ (y : Words 4) : word (putWord p 0 y) 2 = word p 2 :=
    word_putWord_ne _ _ (by decide) (by decide)
  have h₃ (y : Words 4) : word (putWord p 0 y) (2 + 1) = word p 3 :=
    word_putWord_ne _ _ (by decide) (by decide)
  rw [show 32*r = 4*(8*r) from by omega,takeF_eq,takeF_eq,h₂,h₃]
  have h₀ := hf 1 0 (by decide) rfl
  have h₁ := hf 3 1 (by decide) rfl
  rw [Nat.mul_zero,Nat.add_zero] at h₀
  rw [Nat.mul_one] at h₁
  rw [Nat.zero_add,h₀,h₁]
  interval_cases j
  · rw [word_putWord_ne _ _ (by decide) (by decide),word_putWord _ _ _ (by decide),if_pos rfl]
  · rw [word_putWord_ne _ _ (by decide) (by decide),word_putWord_ne _ _ (by decide) (by decide),
      if_neg (by decide)]
  · rw [word_putWord _ _ _ (by decide),if_pos rfl]
  · rw [word_putWord_ne _ _ (by decide) (by decide),word_putWord_ne _ _ (by decide) (by decide),
      if_neg (by decide)]

theorem round_eq (rk : Words 448) (r : Nat) (hk : ∀ q < 8,word rk (8*r + q) = word k q) :
    round rk ⟨p,32*r⟩ = ⟨Glsl.rotated (taken p (Glsl.sideBySide form k p)),32*(r + 1)⟩ := by
  rw [round]
  have hu : (takeF rk (takeF rk ⟨p,32*r⟩ 0) 2).u = 32*(r + 1) := by
    rw [show 32*r = 4*(8*r) from by omega,takeF_eq,takeF_eq]
    show 4*(8*r + 4 + 4) = _
    omega
  rw [hu]
  refine congrArg (Rounds.mk · _) (ext_words (n := 4) rfl fun j hj => ?_)
  rw [word_rotated _ hj,word_glsl_rotated _ hj,word_bothTaken form k p rk r hk (by omega),
    word_taken p _ (by omega)]

end Kernel

section Compression

variable (form : Form) (h : Words 16) (m : Words 32) (cnt : Words 4)

theorem rounds_eq {rk : Words 448} (hrk : Filled form m cnt 13 rk) {n : Nat} (hn : n ≤ 14) :
    (upTo n ⟨h,0⟩ fun _ s => round rk s) =
      ⟨(upTo n ⟨m,h⟩ fun r s => Glsl.round form cnt r s).p,32*n⟩ ∧
    (upTo n ⟨m,h⟩ fun r s => Glsl.round form cnt r s).k = keys form m cnt (n - 1) := by
  induction n with
  | zero => exact ⟨rfl,rfl⟩
  | succ n ih =>
    obtain ⟨hs,hk⟩ := ih (by omega)
    rw [upTo,upTo,hs]
    generalize upTo n ⟨m,h⟩ (fun r s => Glsl.round form cnt r s) = s at hk
    have hkeys : (if 0 < n then shavite512NextKeys form s.k n cnt else s.k) = keys form m cnt n := by
      cases n with
      | zero => exact hk
      | succ n => rw [if_pos (Nat.succ_pos n),hk,Nat.add_sub_cancel,keys]
    have hround := round_eq form (keys form m cnt n) s.p rk n fun q hq =>
      hrk.word form m cnt (by omega) hq
    have hglsl : Glsl.round form cnt n s =
        ⟨keys form m cnt n,Glsl.rotated (taken s.p (Glsl.sideBySide form (keys form m cnt n) s.p))⟩ := by
      rw [← hkeys]
      rfl
    rw [hround,hglsl]
    exact ⟨rfl,by rw [Nat.add_sub_cancel]⟩

def blockOf (msg : List Byte) : Words 32 :=
  upTo 32 (Words.zeros 32) fun i m => m.write i (leWordAt msg i)

theorem firstWords_filled (msg : List Byte) : Filled form (blockOf msg) cnt 0 (firstWords msg) := by
  intro c hc i hi
  obtain rfl := Nat.le_zero.mp hc
  rw [Nat.mul_zero,Nat.zero_add,firstWords,Words.read_fill _ _ (by decide) hi]
  exact (Words.read_fill _ _ (Nat.le_refl 32) hi).symm

theorem shavite512Expand_some (msg : List Byte) :
    ∃ rk,shavite512Expand msg cnt = some rk ∧ Filled form (blockOf msg) cnt 13 rk := by
  obtain ⟨s,hs,hfilled⟩ := expandLoop_some form (blockOf msg) cnt (n := 448)
    (firstWords_filled form cnt msg) rfl (by decide) (by decide)
  refine ⟨s.rk,?_,hfilled⟩
  rw [shavite512Expand,hs]
  rfl

/-- The kernel behind its round `r`, with that round's keys. -/
def atRound (r : Nat) : Glsl.State := upTo (r + 1) ⟨m,h⟩ fun r s => Glsl.round form cnt r s

/-- For every form of the AES rounds: the keys that the fourteen rounds have are the words of the
whole schedule in their order, and the compressions agree. -/
theorem shavite512_compress_eq (msg : List Byte) :
    shavite512Expand msg cnt = some (Words.ofList ((List.range 448).map fun p =>
      (atRound form h (blockOf msg) cnt (p / 32)).k.read (p % 32))) ∧
    shavite512Compress h msg cnt =
      some (Glsl.shavite512Compress form h (blockOf msg) cnt) := by
  obtain ⟨rk,hrk,hfilled⟩ := shavite512Expand_some form cnt msg
  constructor
  · rw [hrk]
    refine congrArg some (Words.ext _ _ fun p hp => ?_)
    have hkeys := (rounds_eq form h (blockOf msg) cnt hfilled (by omega : p / 32 + 1 ≤ 14)).2
    rw [Words.ofList,Words.read_ofFn _ hp]
    simp only [atRound,List.getD_eq_getElem?_getD,List.getElem?_map,List.getElem?_range hp,Option.map_some,
      Option.getD_some]
    rw [hkeys,Nat.add_sub_cancel,← hfilled _ (by omega) _ (Nat.mod_lt _ (by decide)),Nat.div_add_mod]
  · rw [shavite512Compress,hrk,Option.map_some,shavite512Rounds,
      (rounds_eq form h (blockOf msg) cnt hfilled (Nat.le_refl 14)).1]
    rfl

end Compression

end VkMiner.Shavite
