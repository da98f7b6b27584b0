import Mathlib.Tactic.IntervalCases
import VkMiner.Heavyhash.Lanes
import VkMiner.Sha256d.Digest
set_option autoImplicit false

/-! The SHA-3 of the host over words: the lanes that a message fills, and the words of its
digest. -/

namespace VkMiner.Heavyhash
open Loops Cells Halves
open Glsl (digestWord)
open Sha256d (Word Byte leWordAt leBytes)

def paddedLane (m : Nat → Word) (c i : Nat) : Word64 :=
  if i < c then join ⟨m (2*i),m (2*i + 1)⟩
  else if i = c then 0x06
  else if i = 16 then 0x8000000000000000
  else 0

def padded (m : Nat → Word) (c : Nat) : Cells Word64 25 := Vector.ofFn fun i => paddedLane m c i

theorem padded_read (m : Nat → Word) (c : Nat) {i : Nat} (hi : i < 25) :
    (padded m c).read i = paddedLane m c i := Cells.read_ofFn _ hi

theorem padded_congr {m m' : Nat → Word} {c : Nat} (h : ∀ i < 2*c, m i = m' i) :
    padded m c = padded m' c := by
  refine Cells.ext _ _ fun i hi => ?_
  rw [padded_read m c hi,padded_read m' c hi,paddedLane,paddedLane]
  split
  · rw [h _ (by omega),h _ (by omega)]
  · rfl

/-! ### Bytes into lanes -/

theorem join_bytes (b0 b1 b2 b3 b4 b5 b6 b7 : Byte) :
    join ⟨b0.setWidth 32 ||| (b1.setWidth 32 <<< 8) ||| (b2.setWidth 32 <<< 16) |||
        (b3.setWidth 32 <<< 24),
      b4.setWidth 32 ||| (b5.setWidth 32 <<< 8) ||| (b6.setWidth 32 <<< 16) |||
        (b7.setWidth 32 <<< 24)⟩ =
      (0#64 ^^^ (b0.setWidth 64 <<< 0) ^^^ (b1.setWidth 64 <<< 8) ^^^ (b2.setWidth 64 <<< 16) ^^^
        (b3.setWidth 64 <<< 24) ^^^ (b4.setWidth 64 <<< 32) ^^^ (b5.setWidth 64 <<< 40) ^^^
        (b6.setWidth 64 <<< 48) ^^^ (b7.setWidth 64 <<< 56)) := by
  refine join_bits (fun i hi => ?_) fun i hi => ?_
  · interval_cases i <;> simp
  · interval_cases i <;> simp

theorem lane_bytes (p : List Byte) (a : Cells Word64 25) {k : Nat} (hk : k < 25)
    (ha : a.read k = 0#64) (j : Nat) :
    Cells.read (upTo 8 a fun i a => a.write ((k * 8 + i) / 8) (a.read ((k * 8 + i) / 8) ^^^
      ((p.getD (k * 8 + i) 0).setWidth 64 <<< (8 * ((k * 8 + i) % 8))))) j =
        if j = k then join ⟨leWordAt p (2*k),leWordAt p (2*k + 1)⟩ else a.read j := by
  have hplace (i : Nat) (hi : i < 8) : (k * 8 + i) / 8 = k ∧ (k * 8 + i) % 8 = i := by omega
  have hrun : (upTo 8 a fun i a => a.write ((k * 8 + i) / 8) (a.read ((k * 8 + i) / 8) ^^^
      ((p.getD (k * 8 + i) 0).setWidth 64 <<< (8 * ((k * 8 + i) % 8))))) =
        upTo 8 a fun i a => a.write k (a.read k ^^^
          ((p.getD (k * 8 + i) 0).setWidth 64 <<< (8 * i))) :=
    upTo_congr a fun i hi a => by rw [(hplace i hi).1,(hplace i hi).2]
  rw [hrun]
  by_cases hj : j = k
  · subst hj
    have hword : 2*j*4 = j * 8 ∧ (2*j + 1)*4 = j * 8 + 4 := by omega
    rw [if_pos rfl]
    simp only [leWordAt,hword,join_bytes]
    simp only [upTo,Cells.read_write_self _ _ hk,ha,Nat.reduceMul,Nat.add_zero]
  · have hne : k ≠ j := fun h => hj h.symm
    simp only [if_neg hj,upTo,Cells.read_write_ne _ _ hne]

theorem absorb_eq {p : List Byte} {c : Nat} (hp : p.length = 8*c) (hc : c < 16) :
    absorb p = padded (leWordAt p) c := by
  have hrows := upTo_invariant (n := c) (s := (blank 25 : Cells Word64 25))
    (f := fun k a => upTo 8 a fun i a => a.write ((k * 8 + i) / 8) (a.read ((k * 8 + i) / 8) ^^^
      ((p.getD (k * 8 + i) 0).setWidth 64 <<< (8 * ((k * 8 + i) % 8)))))
    (P := fun k a => ∀ j < 25, a.read j =
      if j < k then join ⟨leWordAt p (2*j),leWordAt p (2*j + 1)⟩ else 0#64)
    (fun j hj => by
      rw [if_neg (Nat.not_lt_zero j),read_blank]
      rfl) fun k hk a ha j hj => by
      rw [lane_bytes p a (by omega) ((ha k (by omega)).trans (if_neg (lt_irrefl k)))]
      by_cases hjk : j = k
      · rw [if_pos hjk,if_pos (by omega),hjk]
      · rw [if_neg hjk,ha j hj]
        have : j < k ↔ j < k + 1 := by omega
        simp only [this]
  refine Cells.ext _ _ fun j hj => ?_
  rw [padded_read _ _ hj]
  simp only [absorb,hp,Nat.mul_comm 8 c,upTo_rows]
  generalize (upTo c (blank 25 : Cells Word64 25) fun k a => upTo 8 a fun i a =>
    a.write ((k * 8 + i) / 8) (a.read ((k * 8 + i) / 8) ^^^
      ((p.getD (k * 8 + i) 0).setWidth 64 <<< (8 * ((k * 8 + i) % 8))))) = a at hrows
  have hlane : c * 8 / 8 = c ∧ 8 * (c * 8 % 8) = 0 := by omega
  rw [hlane.1,hlane.2,BitVec.shiftLeft_zero,paddedLane]
  obtain rfl | h16 := eq_or_ne 16 j
  · rw [Cells.read_write_self _ _ hj,Cells.read_write_ne _ _ (by omega),hrows 16 hj,
      if_neg (by omega),if_neg (by omega),if_neg (by omega),if_pos rfl,BitVec.zero_xor]
  · rw [Cells.read_write_ne _ _ h16]
    obtain rfl | hcj := eq_or_ne c j
    · rw [Cells.read_write_self _ _ hj,hrows c hj,if_neg (lt_irrefl c),if_neg (lt_irrefl c),
        if_pos rfl,BitVec.zero_xor]
    · rw [Cells.read_write_ne _ _ hcj,hrows j hj]
      split
      · rfl
      · rw [if_neg hcj.symm,if_neg h16.symm]
        rfl

/-! ### Lanes into bytes -/

theorem byte_of_word {w : Nat} (x : BitVec w) (u : Nat) {s : Nat} (hs : s ≤ 24) :
    (((x >>> u).setWidth 32 : Word) >>> s).setWidth 8 = ((x >>> (u + s)).setWidth 8 : Byte) := by
  refine BitVec.eq_of_getLsbD_eq fun i hi => ?_
  simp only [BitVec.getLsbD_setWidth,BitVec.getLsbD_ushiftRight,hi,show s + i < 32 by omega,
    decide_true,Bool.true_and,Nat.add_assoc]

theorem range_words {f : Nat → Byte} {word : Nat → Word}
    (h : ∀ q < 8, [f (4*q),f (4*q + 1),f (4*q + 2),f (4*q + 3)] = leBytes (word q)) :
    (List.range 32).map f = ((List.range 8).map word).flatMap leBytes := by
  have hrange : List.range 32 =
      (List.range 8).flatMap fun q => [4*q,4*q + 1,4*q + 2,4*q + 3] := by decide
  rw [hrange,List.map_flatMap,List.flatMap_map]
  exact List.flatMap_congr fun q hq => h q (List.mem_range.mp hq)

theorem squeezed_eq (a : Cells Word64 25) :
    ((List.range 32).map fun i => (a.read (i / 8) >>> (8 * (i % 8))).setWidth 8) =
      ((List.range 8).map (digestWord a)).flatMap leBytes := by
  refine range_words fun q hq => ?_
  have hplace {t : Nat} (ht : t < 4) : (4*q + t) / 8 = q / 2 ∧
      8 * ((4*q + t) % 8) = 32 * (q % 2) + 8*t := by omega
  have h₀ := hplace (t := 0) (by decide)
  simp only [Nat.add_zero,Nat.mul_zero] at h₀
  have hbyte {t : Nat} (ht : 8*t ≤ 24) : (digestWord a q >>> (8*t)).setWidth 8 =
      ((a.read (q / 2) >>> (32 * (q % 2) + 8*t)).setWidth 8 : Byte) := byte_of_word _ _ ht
  have hfirst : (digestWord a q).setWidth 8 =
      ((a.read (q / 2) >>> (32 * (q % 2))).setWidth 8 : Byte) := hbyte (t := 0) (by decide)
  simp only [leBytes,h₀,hfirst,(hplace (t := 1) (by decide)),(hplace (t := 2) (by decide)),
    (hplace (t := 3) (by decide)),← hbyte (t := 1) (by decide),← hbyte (t := 2) (by decide),
    ← hbyte (t := 3) (by decide),Nat.reduceMul]

theorem heavyhashSha3_256_eq {p : List Byte} {c : Nat} (hp : p.length = 8*c) (hc : c < 16) :
    heavyhashSha3_256 p =
      ((List.range 8).map (digestWord (keccakf (padded (leWordAt p) c)))).flatMap leBytes := by
  simp only [heavyhashSha3_256]
  rw [squeezed_eq,absorb_eq hp hc]

end VkMiner.Heavyhash
