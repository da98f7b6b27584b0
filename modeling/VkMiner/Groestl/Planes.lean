import VkMiner.Groestl.Sbox
import VkMiner.Groestl.Slices
set_option autoImplicit false

/-! The gates of the S-box are the S-box, at every place of the planes. -/

namespace VkMiner.Groestl.Glsl
open Loops Circuit
open Sha256d (Byte)

def truth (b : Nat) : BitVec 256 := BitVec.ofNat 256 (((2^256 - 1)/(2^(2^b) + 1)) <<< (2^b))

theorem truth_bit : ∀ b < 8,∀ v < 256,(truth b).getLsbD v = (BitVec.ofNat 8 v).getLsbD b := by
  decide +kernel

theorem gates_table : ∀ b < 8,∀ v < 256,
    (run (words 256) SboxWires.gates (fun n => truth (7 - n)) (400 + (7 - b))).getLsbD v =
      (affine (BitVec.ofNat 8 (inverseFrom 7 v 1))).getLsbD b := by
  have htable : ∀ b < 8,∀ v < 256,
      (run (words 256) SboxWires.gates (fun n => truth (7 - n)) (400 + (7 - b))).getLsbD v =
        (affine (BitVec.ofNat 8 (inverseUnrolled v 1))).getLsbD b := by decide +kernel
  intro b hb v hv
  rw [htable b hb v hv,inverseFrom_unrolled hv (by decide)]

theorem groestlBsSbox_read (q : Words 8) {b : Nat} (hb : b < 8) :
    (groestlBsSbox q).read b =
      run (words 32) SboxWires.gates (fun n => q.read (7 - n)) (400 + (7 - b)) := by
  let s := run (words 32) SboxWires.gates fun n => q.read (7 - n)
  show (upTo 8 q fun i q => q.write (7 - i) (s (400 + i))).read b = s (400 + (7 - b))
  generalize s = s
  interval_cases b <;>
    simp (disch := decide) only [upTo,Nat.reduceSub,Nat.reduceAdd,Words.read_write_self,
      Words.read_write_ne]

def HasByte (q : Words 8) (i : Nat) (v : Byte) : Prop :=
  ∀ b < 8,(q.read b).getLsbD i = v.getLsbD b

theorem HasByte.sbox {q : Words 8} {i : Nat} {v : Byte} (h : HasByte q i v) (hi : i < 32) :
    HasByte (groestlBsSbox q) i (groestl512Sbox v) := by
  intro b hb
  have hv := v.isLt
  have hplanes : (fun n => (q.read (7 - n)).getLsbD i) =
      fun n => (truth (7 - n)).getLsbD v.toNat := by
    funext n
    rw [h _ (by omega),truth_bit _ (by omega) _ hv,BitVec.ofNat_toNat,BitVec.setWidth_eq]
  rw [groestlBsSbox_read q hb,(bit_hom hi).run,hplanes,← (bit_hom hv).run,gates_table b hb _ hv,
    groestl512Sbox_eq]

end VkMiner.Groestl.Glsl
