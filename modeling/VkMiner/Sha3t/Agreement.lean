import VkMiner.Heavyhash.Agreement
import VkMiner.Sha3t.Kernel
set_option autoImplicit false

/-! The sha3t kernel and the host find the same nonces, with the same hashes. -/

namespace VkMiner.Sha3t
open Loops Cells Halves Heavyhash Heavyhash.Glsl Sha3t.Glsl
open Progpow.Glsl (bswap32)
open Sha256d (Word Byte encode leWordAt leBytes fulltest)

variable {header : Words 20} {nonce : Word}

/-! ### The host, in words -/

theorem sha3_256_eq (p : List Byte) : sha3_256 p = heavyhashSha3_256 p := rfl

def again (d : Words 8) : Words 8 := digestWords (keccakf (padded d.read 4))

theorem leWordAt_bytesOf (d : Words 8) {i : Nat} (hi : i < 8) : leWordAt (bytesOf d) i = d.read i := by
  rw [bytesOf,Sha256d.leWordAt_leBytes,List.getD_eq_getElem _ _ (by simpa using hi)]
  simp

theorem sha3_256_bytes (d : Words 8) : sha3_256 (bytesOf d) = bytesOf (again d) := by
  have hlen : (bytesOf d).length = 8*4 := rfl
  have hwords : padded (leWordAt (bytesOf d)) 4 = padded d.read 4 :=
    padded_congr fun i hi => leWordAt_bytesOf d (by omega)
  have hread : (List.range 8).map (again d).read =
      (List.range 8).map (digestWord (keccakf (padded d.read 4))) :=
    List.map_congr_left fun i hi => digestWords_read _ (List.mem_range.mp hi)
  rw [sha3_256_eq,heavyhashSha3_256_eq hlen (by decide),hwords,bytesOf,hread]

theorem hash_eq (header : Words 20) (nonce : Word) :
    hash header (nonce.setWidth 64) = again (again (firstDigest header nonce)) := by
  have hnonce : (nonce.setWidth 64).setWidth 32 = nonce := by simp
  refine Words.ext _ _ fun i hi => ?_
  simp only [hash,sha3t80,hnonce]
  rw [Words.read_fill _ _ (Nat.le_refl 8) hi,sha3_256_eq (encode _),first_bytes,sha3_256_bytes,
    sha3_256_bytes,leWordAt_bytesOf _ hi]

/-! ### The kernel -/

section
variable {L : Type} [Inhabited L] {B : KLane L} {val : L → Word64} {push : Sha3tPush}

theorem sha3Keccakf_map (hB : B.Lawful val) (a : Cells L 25) :
    (sha3Keccakf B a).map val = keccakf (a.map val) :=
  upTo_hom (Vector.map val) a fun _ hr a => hhRound_map hB a hr

theorem lane_words (hB : B.Lawful val) (a : Cells L 25) {i : Nat} (hi : i < 4) :
    val (a.read i) =
      join ⟨(digestWords (a.map val)).read (2*i),(digestWords (a.map val)).read (2*i + 1)⟩ := by
  have hplace : 2*i / 2 = i ∧ 2*i % 2 = 0 ∧ (2*i + 1) / 2 = i ∧ (2*i + 1) % 2 = 1 := by omega
  have hlane : Cells.read (a.map val) i = val (a.read i) := Cells.read_map val hB.hom.blank a i
  rw [digestWords_read _ (by omega),digestWords_read _ (by omega),digestWord,digestWord,hplace.1,
    hplace.2.1,hplace.2.2.1,hplace.2.2.2,hlane]
  exact (join_split _).symm

theorem sha3_256_32_map (hB : B.Lawful val) (a : Cells L 25) :
    digestWords ((sha3_256_32 B a).map val) = again (digestWords (a.map val)) := by
  rw [sha3_256_32,sha3Keccakf_map hB,again]
  refine congrArg (fun a => digestWords (keccakf a)) (map_padded hB fun i hi => ?_)
  have hempty {j : Nat} (hj : j < 25) :
      (upTo 25 a fun i a => a.write i (B.klane 0 0)).read j = B.klane 0 0 := by
    rw [Cells.read_fill _ _ (Nat.le_refl 25),if_pos hj]
  have hlane {j : Nat} (hj : j < 4) := lane_words hB a hj
  interval_cases i <;>
    simp (disch := decide) only [Cells.read_write_self,Cells.read_write_ne,hempty,hB.klane,hlane,
      Nat.reduceMul,Nat.reduceAdd] <;>
    rfl

theorem thirdState_map (hB : B.Lawful val) (hp : Pushed push header) (nonce : Word) :
    lowWords B (thirdState B push nonce) = hash header (nonce.setWidth 64) := by
  have hfirst : digestWords ((sha3Keccakf B (headerState B push nonce)).map val) =
      firstDigest header nonce := by
    rw [sha3Keccakf_map hB,headerState_map hB hp,firstDigest]
  rw [lowWords_eq hB,thirdState,sha3_256_32_map hB,sha3_256_32_map hB,hfirst,hash_eq]

theorem top_eq (hB : B.Lawful val) (a : Cells L 25) : B.khi (a.read 3) = (lowWords B a).read 7 := by
  rw [lowWords_eq hB,hB.khi,lane_words hB a (by decide : 3 < 4)]
  exact high_join ⟨_,_⟩

theorem main_eq (hB : B.Lawful val) (hp : Pushed push header) (index : Word) :
    Sha3t.Glsl.main B push index =
      if index < push.count ∧ fulltest (hash header ((push.nonceStart + index).setWidth 64))
          push.target 8 = true then
        some ⟨push.nonceStart + index,0,hash header ((push.nonceStart + index).setWidth 64)⟩
      else none := by
  have hstate := thirdState_map hB hp (push.nonceStart + index)
  have htop := top_eq hB (thirdState B push (push.nonceStart + index))
  rw [hstate] at htop
  simp only [Sha3t.Glsl.main,htop,hstate,within_eq]
  rw [Screen.fulltest_some,Screen.counted_some]

end

theorem prepare_eq (header : Words 20) (target : Words 8) (start : BitVec 64)
    (count capacity : Word) :
    ∃ push,prepare ⟨some header,some target,start,count,capacity⟩ pushBytes = some push ∧
      Pushed push header ∧ push.target = target ∧ push.nonceStart = start.setWidth 32 ∧
      push.count = count := by
  refine ⟨_,rfl,fun i hi => ?_,rfl,rfl,rfl⟩
  rw [Words.read_fill _ _ (Nat.le_refl 19) hi,Sha256d.leWordAt_encode,Sha256d.leWord_bytes,
    Sha256d.words_toList]
  interval_cases i <;> rfl

/-- Whichever its lanes are, the kernel emits exactly the nonces of the dispatch whose hash meets
the target, each with its hash. -/
theorem sha3t_main_eq (module : Sha3t.Glsl.Module) (header : Words 20) (target : Words 8) (start : BitVec 64)
    (count capacity : Word) :
    ∃ push,prepare ⟨some header,some target,start,count,capacity⟩ pushBytes = some push ∧
      ∀ index : Word,
        let nonce := start.setWidth 32 + index
        module.main push index =
          if index < count ∧ fulltest (hash header (nonce.setWidth 64)) target 8 = true then
            some ⟨nonce,0,hash header (nonce.setWidth 64)⟩
          else none := by
  obtain ⟨push,hpush,hp,htarget,hstart,hcount⟩ := prepare_eq header target start count capacity
  refine ⟨push,hpush,fun index => ?_⟩
  rw [← htarget,← hstart,← hcount]
  cases module with
  | int64 => exact main_eq int64_lawful hp index
  | pairs => exact main_eq pairs_lawful hp index

end VkMiner.Sha3t
