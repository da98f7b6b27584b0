import VkMiner.Cubehash.Kernel
set_option autoImplicit false

/-! The stage of x11 is the host's CubeHash-512 of the digest before it. -/

namespace VkMiner.Cubehash
open Loops Glsl
open Sha256d (Word Byte leWordAt leBytes)

/-! ### The rounds -/

/-! A pass of the device makes the exchanges of several passes of the host, of which the others
are idle. -/

theorem swapTwos_eq (x : Words 32) : swapTwos x =
    upTo 16 x fun i x => if i &&& 2 = 0 then swap x (16 + i) (16 + (i ^^^ 2)) else x := by
  refine (upTo_congr x fun i hi x => ?_).trans (upTo_rows 4 4 x _).symm
  interval_cases i <;> rfl

theorem swapFours_eq (x : Words 32) : swapFours x =
    upTo 16 x fun i x => if i &&& 4 = 0 then swap x i (i ^^^ 4) else x := by
  refine (upTo_congr x fun i hi x => ?_).trans (upTo_rows 2 8 x _).symm
  interval_cases i <;> rfl

theorem swapOnes_eq (x : Words 32) : swapOnes x =
    upTo 16 x fun i x => if i &&& 1 = 0 then swap x (16 + i) (16 + (i ^^^ 1)) else x := by
  refine (upTo_congr x fun i hi x => ?_).trans (upTo_rows 8 2 x _).symm
  interval_cases i <;> rfl

theorem tenSteps_eq (x : Words 32) : tenSteps x = cubehashRound x := by
  rw [tenSteps,swapTwos_eq,swapFours_eq,swapOnes_eq,cubehashRound]

theorem cubehash512Rounds_eq (x : Words 32) (k : Nat) :
    cubehash512Rounds x (2*k) = upTo (2*k) x fun _ x => cubehashRound x := by
  rw [cubehash512Rounds,show (2*k + 1) / 2 = k by omega]
  induction k with
  | zero => rw [Nat.mul_zero,upTo,upTo]
  | succ k ih => rw [upTo,ih,cubehashRound2,tenSteps_eq,tenSteps_eq,Nat.mul_succ,upTo,upTo]

/-! ### The blocks -/

def absorb (x : Words 32) (w : Nat → Word) : Words 32 :=
  let x := upTo 8 x fun i x => x.write i (x.read i ^^^ w i)
  upTo 16 x fun _ x => cubehashRound x

theorem absorb_congr (x : Words 32) {w w' : Nat → Word} (h : ∀ i < 8,w i = w' i) :
    absorb x w = absorb x w' := by
  have hwords := upTo_congr (f := fun i (x : Words 32) => x.write i (x.read i ^^^ w i))
    (g := fun i x => x.write i (x.read i ^^^ w' i)) x fun i hi x => by rw [h i hi]
  rw [absorb,hwords,absorb]

theorem cubehash512Block_eq (x : Words 32) (block : List Byte) :
    cubehash512Block x block = absorb x (leWordAt block) := rfl

theorem absorb_first (x : Words 32) {w : Nat → Word} (h : ∀ i < 8,i ≠ 0 → w i = 0) :
    absorb x w = upTo 16 (x.write 0 (x.read 0 ^^^ w 0)) fun _ x => cubehashRound x := by
  have hwords : (upTo 8 x fun i x => Words.write x i (x.read i ^^^ w i)) =
      x.write 0 (x.read 0 ^^^ w 0) := by
    refine Words.ext _ _ fun j hj => ?_
    have hread := Words.read_update (f := fun i x => Words.read x i ^^^ w i)
      (g := fun i => x.read i ^^^ w i) x 0 (by decide : 0 + 8 ≤ 32)
      (fun i _ u hu => by rw [hu i (Or.inr (by omega))]) j
    simp only [Nat.zero_add,Nat.zero_le,true_and,Nat.sub_zero] at hread
    rw [hread]
    obtain rfl | hne := eq_or_ne 0 j
    · rw [if_pos (by decide),Words.read_write_self _ _ hj]
    · rw [Words.read_write_ne _ _ hne]
      split
      · next hlt =>
        rw [h j hlt (Ne.symm hne)]
        exact BitVec.xor_zero
      · rfl
  rw [absorb,hwords]

def digestBytes (s : Words 16) : List Byte := (List.range 16).flatMap fun k => leBytes (s.read k)

def halfBytes (s : Words 16) (b : Nat) : List Byte :=
  ((List.range 8).map fun k => s.read (8*b + k)).flatMap leBytes

theorem digestBytes_halves (s : Words 16) : digestBytes s = halfBytes s 0 ++ halfBytes s 1 := rfl

theorem halfBytes_length (s : Words 16) (b : Nat) : (halfBytes s b).length = 32 := rfl

theorem halfBytes_word (s : Words 16) (b : Nat) {i : Nat} (hi : i < 8) :
    leWordAt (halfBytes s b) i = s.read (8*b + i) := by
  rw [halfBytes,Sha256d.leWordAt_leBytes,List.getD_eq_getElem _ _ (by simpa using hi)]
  simp

theorem wholeBlocks_digest (x : Words 32) (s : Words 16) :
    wholeBlocks x (digestBytes s) =
      (cubehash512Block (cubehash512Block x (halfBytes s 0)) (halfBytes s 1),[]) := by
  have hlen (b : Nat) := halfBytes_length s b
  have hlast : (halfBytes s 1).take 32 = halfBytes s 1 ∧ (halfBytes s 1).drop 32 = [] :=
    ⟨List.take_of_length_le (hlen 1).le,List.drop_of_length_le (hlen 1).le⟩
  rw [digestBytes_halves,wholeBlocks,if_pos (by rw [List.length_append,hlen]; omega),
    List.take_left' (hlen 0),List.drop_left' (hlen 0),wholeBlocks,if_pos (hlen 1).ge,hlast.1,
    hlast.2,wholeBlocks,if_neg (by decide)]

theorem padding_word : ∀ i < 8,leWordAt ((0x80 : Byte) :: List.replicate 31 0) i =
    if i = 0 then 0x80 else 0 := by decide

theorem padding_block (x : Words 32) :
    cubehash512Block x ((0x80 : Byte) :: List.replicate 31 0) =
      upTo 16 (x.write 0 (x.read 0 ^^^ 0x80)) fun _ x => cubehashRound x := by
  rw [cubehash512Block_eq,absorb_first x fun i hi hne => by rw [padding_word i hi,if_neg hne],
    padding_word 0 (by decide),if_pos rfl]

/-- For any digest before it, the stage leaves the bytes of the host's hash of its bytes. -/
theorem x11_cubehash_eq (s : Words 16) :
    digestBytes (x11Cubehash s) = cubehash512Full (digestBytes s) := by
  have hblock (x : Words 32) (b : Nat) :
      cubehash512Rounds (upTo 8 x fun k x => x.write k (x.read k ^^^ s.read (8*b + k))) 16 =
        cubehash512Block x (halfBytes s b) := by
    rw [cubehash512Rounds_eq _ 8,cubehash512Block_eq,
      absorb_congr x fun i hi => halfBytes_word s b hi]
    rfl
  have hloop : (upTo 2 kCubehash512Iv fun b x =>
      cubehash512Rounds (upTo 8 x fun k x => x.write k (x.read k ^^^ s.read (8*b + k))) 16) =
        cubehash512Block (cubehash512Block cubehash512Iv (halfBytes s 0)) (halfBytes s 1) := by
    simp only [hblock]
    rw [upTo,upTo,upTo,show kCubehash512Iv = cubehash512Iv from rfl]
  rw [x11Cubehash,cubehash512Full,wholeBlocks_digest,hloop]
  simp only [List.nil_append,List.length_nil,Nat.sub_zero,padding_block,
    cubehash512Rounds_eq _ 8,cubehash512Rounds_eq _ 80]
  refine List.flatMap_congr fun k hk => ?_
  rw [Words.read_fill _ _ (Nat.le_refl 16) (List.mem_range.mp hk)]

end VkMiner.Cubehash
