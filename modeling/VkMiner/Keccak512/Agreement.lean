import VkMiner.Cubehash.Agreement
import VkMiner.Keccak512.Kernel
import VkMiner.Sha3t.Agreement
import VkMiner.Skein.Agreement
set_option autoImplicit false

/-! The Keccak-512 stage of x11 is the host's Keccak-512 of the digest before it. -/

namespace VkMiner.Keccak512
open Loops Cells Halves Heavyhash Heavyhash.Glsl Keccak512.Glsl
open Cubehash (digestBytes)
open Sha256d (Word Byte leWordAt leBytes)
open Sha3t.Glsl (sha3Keccakf)

/-! ### The permutation -/

theorem mixColumns_eq (a : Cells Word64 25) : mixColumns a = Keccak.theta lanes a := by
  have hd {x : Nat} (hx : x < 5) (c : Cells Word64 5) :
      Cells.read (upTo 5 (blank 5) fun x (d : Cells Word64 5) => d.write x
        (lanes.xor (c.read ((x + 4) % 5)) (lanes.rotl (c.read ((x + 1) % 5)) 1))) x =
          c.read ((x + 4) % 5) ^^^ rotl64 (c.read ((x + 1) % 5)) 1 := by
    rw [Cells.read_fill _ _ (Nat.le_refl 5),if_pos hx]
    rfl
  simp only [mixColumns,Keccak.theta]
  refine upTo_congr a fun x hx a => upTo_congr a fun y _ a => ?_
  rw [hd hx]
  rfl

theorem keccakf_eq (a : Cells Word64 25) : Keccak512.keccakf a = Heavyhash.keccakf a := by
  refine upTo_congr a fun r _ a => ?_
  rw [Keccak512.round,mixColumns_eq]
  rfl

/-! ### The block -/

theorem le64_words (block : List Byte) (i : Nat) :
    le64 (block.drop (8*i)) = join ⟨leWordAt block (2*i),leWordAt block (2*i + 1)⟩ := by
  have hget (k : Nat) : (block.drop (8*i)).getD k 0 = block.getD (i*8 + k) 0 := by
    rw [List.getD_eq_getElem?_getD,List.getElem?_drop,List.getD_eq_getElem?_getD,Nat.mul_comm]
  have hbytes : le64 (block.drop (8*i)) = Skein.le64At block i := by
    simp only [le64,upTo,hget,Skein.le64At,Nat.reduceSub,Nat.add_zero,Nat.sub_zero]
    generalize block.getD (i*8) 0 = b0
    generalize block.getD (i*8 + 1) 0 = b1
    generalize block.getD (i*8 + 2) 0 = b2
    generalize block.getD (i*8 + 3) 0 = b3
    generalize block.getD (i*8 + 4) 0 = b4
    generalize block.getD (i*8 + 5) 0 = b5
    generalize block.getD (i*8 + 6) 0 = b6
    generalize block.getD (i*8 + 7) 0 = b7
    refine BitVec.eq_of_getLsbD_eq fun i hi => ?_
    interval_cases i <;> simp
  rw [hbytes,Skein.le64At_eq,join_eq]
  rfl

theorem digestBytes_length (s : Words 16) : (digestBytes s).length = 64 := rfl

def blockOf (s : Words 16) : List Word := (List.range 16).map s.read ++ [0x01,0x80000000]

theorem padded_bytes (s : Words 16) :
    ((digestBytes s ++ List.replicate 8 0).set 64
      ((digestBytes s ++ List.replicate 8 0).getD 64 0 ^^^ 0x01)).set 71
        (((digestBytes s ++ List.replicate 8 0).set 64
          ((digestBytes s ++ List.replicate 8 0).getD 64 0 ^^^ 0x01)).getD 71 0 ^^^ 0x80) =
      (blockOf s).flatMap leBytes := by
  have hlen := digestBytes_length s
  have hbytes : (blockOf s).flatMap leBytes = digestBytes s ++ [0x01,0,0,0,0,0,0,0x80] := by
    rw [blockOf,List.flatMap_append,List.flatMap_map,digestBytes]
    rfl
  have hget (p : List Byte) {k : Nat} (hk : 64 ≤ k) :
      (digestBytes s ++ p).getD k 0 = p.getD (k - 64) 0 := by
    rw [List.getD_append_right _ _ _ _ (by omega),hlen]
  have hset (p : List Byte) (x : Byte) {k : Nat} (hk : 64 ≤ k) :
      (digestBytes s ++ p).set k x = digestBytes s ++ p.set (k - 64) x := by
    rw [List.set_append_right _ _ (by omega),hlen]
  rw [hget _ (by decide),hset _ _ (by decide),hget _ (by decide),hset _ _ (by decide),hbytes]
  rfl

def startState (s : Words 16) : Cells Word64 25 :=
  upTo 9 (blank 25) fun i a =>
    a.write i (join ⟨(blockOf s).getD (2*i) 0,(blockOf s).getD (2*i + 1) 0⟩)

theorem keccak512Full_eq (s : Words 16) : keccak512Full (digestBytes s) =
    (List.range 8).flatMap fun i => (List.range 8).map fun k =>
      (Cells.read (Heavyhash.keccakf (startState s)) i >>> (8*k)).setWidth 8 := by
  have hlen := digestBytes_length s
  have hwhole : wholeBlocks (blank 25) (digestBytes s) = (blank 25,digestBytes s) := by
    rw [wholeBlocks,if_neg (by rw [hlen]; decide)]
  have hblock : (upTo 9 (blank 25) fun i (a : Cells Word64 25) => a.write i (a.read i ^^^
      le64 (((blockOf s).flatMap leBytes).drop (8*i)))) = startState s := by
    refine Cells.ext _ _ fun j hj => ?_
    have hread := Cells.read_update (f := fun i (a : Cells Word64 25) => a.read i ^^^
        le64 (((blockOf s).flatMap leBytes).drop (8*i)))
      (g := fun i => join ⟨(blockOf s).getD (2*i) 0,(blockOf s).getD (2*i + 1) 0⟩)
      (blank 25) 0 (by decide : 0 + 9 ≤ 25) (fun i _ u hu => by
        rw [hu i (Or.inr (by omega)),Cells.read_blank,le64_words,Sha256d.leWordAt_leBytes,
          Sha256d.leWordAt_leBytes]
        exact BitVec.zero_xor) j
    simp only [Nat.zero_add,Nat.zero_le,true_and,Nat.sub_zero] at hread
    rw [hread,startState,Cells.read_fill _ _ (by decide)]
  have habsorb : keccakAbsorb (blank 25) ((blockOf s).flatMap leBytes) =
      Heavyhash.keccakf (startState s) := by
    rw [keccakAbsorb,keccakf_eq]
    exact congrArg Heavyhash.keccakf hblock
  simp only [keccak512Full,hwhole,hlen]
  rw [show keccak512Rate - 64 = 8 from rfl,show keccak512Rate - 1 = 71 from rfl,padded_bytes,
    habsorb]

/-! ### The stage -/

section
variable {L : Type} [Inhabited L] {B : KLane L} {val : L → Word64}

theorem start_map (hB : B.Lawful val) (s : Words 16) :
    (Glsl.startOf B s).map val = startState s := by
  refine Cells.ext _ _ fun j hj => ?_
  rw [Cells.read_map val hB.hom.blank,startState,Cells.read_fill _ _ (by decide)]
  simp only [Glsl.startOf,upTo]
  interval_cases j <;>
    simp (disch := decide) only [Cells.read_write_self,Cells.read_write_ne,hB.klane,Nat.reduceMul,
      Nat.reduceAdd] <;>
    rfl

theorem flatMap_pairs (g : Nat → List Byte) :
    (List.range 16).flatMap g = (List.range 8).flatMap fun i => g (2*i) ++ g (2*i + 1) := by
  rw [show List.range 16 = [0,1,2,3,4,5,6,7,8,9,10,11,12,13,14,15] from rfl,
    show List.range 8 = [0,1,2,3,4,5,6,7] from rfl]
  simp only [List.flatMap_cons,List.flatMap_nil,List.append_assoc,List.append_nil,Nat.reduceMul,
    Nat.reduceAdd]

theorem x11Keccak_bytes (hB : B.Lawful val) (s : Words 16) :
    digestBytes (x11Keccak B s) = keccak512Full (digestBytes s) := by
  have hstate : (sha3Keccakf B (Glsl.startOf B s)).map val = Heavyhash.keccakf (startState s) := by
    rw [Sha3t.sha3Keccakf_map hB,start_map hB]
  have hlane (i : Nat) : val ((sha3Keccakf B (Glsl.startOf B s)).read i) =
      Cells.read (Heavyhash.keccakf (startState s)) i := by
    rw [← hstate,Cells.read_map val hB.hom.blank]
  have hword {k : Nat} (hk : k < 16) : (x11Keccak B s).read k =
      (Cells.read (Heavyhash.keccakf (startState s)) (k / 2) >>> (32 * (k % 2))).setWidth 32 := by
    simp only [x11Keccak,upTo,hB.klo,hB.khi,hlane]
    interval_cases k <;>
      simp (disch := decide) only [Words.read_write_self,Words.read_write_ne,Nat.reduceMul,
        Nat.reduceAdd,Nat.reduceDiv,Nat.reduceMod,BitVec.ushiftRight_zero]
  rw [keccak512Full_eq]
  generalize Heavyhash.keccakf (startState s) = a at hword
  have hbytes : digestBytes (x11Keccak B s) = (List.range 16).flatMap fun k =>
      leBytes ((Cells.read a (k / 2) >>> (32 * (k % 2))).setWidth 32) :=
    List.flatMap_congr fun k hk => by rw [hword (List.mem_range.mp hk)]
  rw [hbytes,flatMap_pairs]
  refine List.flatMap_congr fun i _ => ?_
  have heven : 2*i / 2 = i ∧ 2*i % 2 = 0 := by omega
  have hodd : (2*i + 1) / 2 = i ∧ (2*i + 1) % 2 = 1 := by omega
  rw [heven.1,heven.2,hodd.1,hodd.2,Nat.mul_zero,BitVec.ushiftRight_zero]
  exact (Skein.leBytes64_eq _).symm

end

/-- Whichever its lanes are, the stage leaves the bytes of the host's hash of the digest before
it. -/
theorem x11_keccak_eq (lanes : Glsl.Lanes) (s : Words 16) :
    digestBytes (lanes.x11Keccak s) = keccak512Full (digestBytes s) := by
  cases lanes with
  | int64 => exact x11Keccak_bytes int64_lawful s
  | pairs => exact x11Keccak_bytes pairs_lawful s

end VkMiner.Keccak512
