import Mathlib.Tactic.IntervalCases
import VkMiner.Progpow.Dataset
set_option autoImplicit false

/-! What an invocation of `dag.comp` makes of the light cache is the item of the host. -/

namespace VkMiner.Ethash
open Loops Cells Halves
open Sha256d (Word)
open Heavyhash (Word64 lanes kRho kRc)

/-! ### The permutations -/

theorem roundConstants_eq : roundConstants = kRc := rfl

theorem halfPass_lane (a : Cells Word64 25) (rc : Word64) {j : Nat} (hj : j < 25) :
    (halfPass a rc).read j = (Keccak.round lanes kRho a rc).read j := by
  rw [Keccak.read_round a rc hj,halfPass]
  obtain rfl | hne := eq_or_ne 0 j
  · rw [Cells.read_write_self _ _ hj,Cells.read_ofFn _ hj,if_pos rfl]
    rfl
  · rw [Cells.read_write_ne _ _ hne,Cells.read_ofFn _ hj,if_neg hne.symm]
    interval_cases j <;> rfl

theorem halfPass_eq (a : Cells Word64 25) (rc : Word64) :
    halfPass a rc = Keccak.round lanes kRho a rc :=
  Cells.ext _ _ fun _ hj => halfPass_lane a rc hj

theorem keccakf1600_eq (a : Cells Word64 25) : keccakf1600 a = Heavyhash.keccakf a := by
  have hrows := upTo_rows 12 2 a fun r a => Keccak.round lanes kRho a (kRc.read r)
  refine Eq.trans ?_ hrows.symm
  refine upTo_congr a fun i _ a => ?_
  rw [halfPass_eq,halfPass_eq,roundConstants_eq,Nat.mul_comm 2 i]
  rfl

/-! ### Words into lanes, and back -/

def absorbed (m : Item) : Cells Word64 25 := Vector.ofFn fun i =>
  if i.val < 8 then join ⟨m.read (2*i),m.read (2*i + 1)⟩
  else if i.val = 8 then 0x8000000000000001 else 0

theorem absorbed_read (m : Item) {i : Nat} (hi : i < 25) : (absorbed m).read i =
    if i < 8 then join ⟨m.read (2*i),m.read (2*i + 1)⟩
    else if i = 8 then 0x8000000000000001 else 0 := Cells.read_ofFn _ hi

theorem words_of_lanes (f g : Nat → Word) (v : Words 16) {j : Nat} (hj : j < 16) :
    (upTo 8 v fun i v => (v.write (2*i) (f i)).write (2*i + 1) (g i)).read j =
      if j % 2 = 0 then f (j/2) else g (j/2) := by
  refine upTo_sets (Words.read · j) v (i := j/2) (by omega) (fun v => ?_) fun i hi _ v => ?_
  · obtain h | h : 2*(j/2) = j ∨ 2*(j/2) + 1 = j := by omega
    · rw [Words.read_write_ne _ _ (by omega),h,Words.read_write_self _ _ hj,if_pos (by omega)]
    · rw [h,Words.read_write_self _ _ hj,if_neg (by omega)]
  · rw [Words.read_write_ne _ _ (by omega),Words.read_write_ne _ _ (by omega)]

theorem loadLe_eq (m : Item) (i : Nat) : loadLe m i = join ⟨m.read (2*i),m.read (2*i + 1)⟩ :=
  (join_eq ⟨m.read (2*i),m.read (2*i + 1)⟩).symm

theorem absorb_eq (m : Item) :
    let state := upTo 8 (blank 25) fun i state => state.write i (state.read i ^^^ loadLe m i)
    let state := state.write 8 (state.read 8 ^^^ 0x01)
    state.write 8 (state.read 8 ^^^ 0x8000000000000000) = absorbed m := by
  have hfill (j : Nat) := Cells.read_update (f := fun i state => state.read i ^^^ loadLe m i)
    (g := loadLe m) (blank 25) (m := 8) 0 (by decide) (fun i _ u hu => by
      rw [hu i (.inr (by omega)),read_blank]
      exact BitVec.zero_xor) j
  simp only [Nat.zero_add,Nat.zero_le,true_and,Nat.sub_zero,read_blank] at hfill
  refine Cells.ext _ _ fun j hj => ?_
  rw [absorbed_read m hj]
  obtain rfl | hne := eq_or_ne 8 j
  · rw [Cells.read_write_self _ _ hj,Cells.read_write_self _ _ hj,hfill,if_neg (by decide),
      if_neg (by decide),if_pos rfl]
    rfl
  · rw [Cells.read_write_ne _ _ hne,Cells.read_write_ne _ _ hne,hfill,loadLe_eq,if_neg hne.symm]
    rfl

theorem keccak512_read (m : Item) {j : Nat} (hj : j < 16) : (keccak512 m).read j =
    Heavyhash.Glsl.digestWord (Heavyhash.keccakf (absorbed m)) j := by
  have habsorb := absorb_eq m
  simp only at habsorb
  rw [keccak512]
  simp only [habsorb,keccakf1600_eq]
  rw [words_of_lanes _ _ _ hj,Heavyhash.Glsl.digestWord]
  split
  · next h => rw [h,Nat.mul_zero,BitVec.ushiftRight_zero]
  · next h => rw [show j % 2 = 1 from by omega]

end VkMiner.Ethash

namespace VkMiner.Progpow.Dag
open Loops Cells Halves
open Ethash (Item absorbed absorbed_read words_of_lanes)
open Heavyhash (Word64)
open Heavyhash.Glsl (KLane)

variable {L : Type} [Inhabited L] {B : KLane L} {val : L → Word64}

theorem sha3Keccakf_map (hB : B.Lawful val) (a : Cells L 25) :
    (sha3Keccakf B a).map val = Heavyhash.keccakf (a.map val) :=
  upTo_hom (Vector.map val) a fun _ hr a => Heavyhash.Glsl.hhRound_map hB a hr

theorem absorb_map (hB : B.Lawful val) (m : Words 16) :
    (upTo 16 ((upTo 8 (blank 25) fun i a =>
        a.write i (B.klane (m.read (2*i)) (m.read (2*i + 1)))).write 8
          (B.klane 0x00000001 0x80000000)) fun i a => a.write (9 + i) (B.klane 0 0)).map val =
      absorbed m := by
  refine Cells.ext _ _ fun j hj => ?_
  have hrest (v : Cells L 25) := Cells.read_update (f := fun _ _ => B.klane 0 0)
    (g := fun _ => B.klane 0 0) v (m := 16) 9 (by decide) (fun _ _ _ _ => rfl) j
  rw [← hB.hom.read,hrest,absorbed_read m hj]
  obtain h | rfl | h : j < 8 ∨ 8 = j ∨ 8 < j := by omega
  · rw [if_neg (by omega),Cells.read_write_ne _ _ (by omega),Cells.read_fill _ _ (by decide),
      if_pos h,if_pos h,hB.klane]
  · rw [if_neg (by omega),Cells.read_write_self _ _ hj,hB.klane]
    rfl
  · rw [if_pos (by omega),if_neg (by omega),if_neg (by omega),hB.klane]
    rfl

theorem keccak512_eq (hB : B.Lawful val) (m : Words 16) : keccak512 B m = Ethash.keccak512 m := by
  refine Words.ext _ _ fun j hj => ?_
  rw [Ethash.keccak512_read m hj,keccak512,words_of_lanes _ _ _ hj,← absorb_map hB m,
    ← sha3Keccakf_map hB,Heavyhash.Glsl.digestWord,← hB.hom.read,hB.klo,hB.khi]
  split
  · next h => rw [h,Nat.mul_zero,BitVec.ushiftRight_zero]
  · next h => rw [show j % 2 = 1 from by omega]

/-! ### The items -/

def cacheWord (lightCache : Nat → Item) (k : Nat) : Word := (lightCache (k/16)).read (k%16)

variable {c : Nat} {lightCache : Nat → Item} {push : DagPush} {cache : Nat → Word}

/-- What a buffer has to hold to be a cache of `c` items, and what the shader is told of it. -/
structure Caching (c : Nat) (lightCache : Nat → Item) (push : DagPush) (cache : Nat → Word) :
    Prop where
  pos : 0 < c
  small : c*16 ≤ 2^32
  told : push.cacheItems.toNat = c
  holds : ∀ k < c*16,cache k = cacheWord lightCache k

theorem remainder_eq (t c : Nat) : Ethash.remainder t c = t%c := by
  rw [Ethash.remainder,Int.tmod_eq_emod_of_nonneg (Int.natCast_nonneg t)]
  omega

theorem Caching.read (h : Caching c lightCache push cache) (t : Word) {j : Nat} (hj : j < 16) :
    cache ((t%push.cacheItems)*kItemWords + BitVec.ofNat 32 j).toNat =
      (lightCache (Ethash.remainder t.toNat c)).read j := by
  have hlt : t.toNat%c < c := Nat.mod_lt _ h.pos
  have hsmall := h.small
  have hplace : ((t%push.cacheItems)*kItemWords + BitVec.ofNat 32 j).toNat = t.toNat%c*16 + j := by
    rw [BitVec.toNat_add,BitVec.toNat_mul,BitVec.toNat_umod,h.told,BitVec.toNat_ofNat,
      show kItemWords.toNat = 16 from rfl]
    omega
  rw [hplace,h.holds _ (by omega),cacheWord,remainder_eq]
  congr 2
  · omega
  · omega

theorem parents_eq (h : Caching c lightCache push cache) (index : Word) (mix : Words 16) :
    parents push cache index mix =
      upTo Ethash.fullDatasetItemParents mix (Ethash.update ⟨c,lightCache⟩ index) := by
  refine upTo_congr mix fun r _ mix => ?_
  refine Words.ext _ _ fun j hj => ?_
  have hread := Words.read_update (n := 16) (m := 16)
    (f := fun j m => fnv1 (m.read j) (cache ((fnv1 (index ^^^ BitVec.ofNat 32 r) (mix.read (r % 16))
      % push.cacheItems)*kItemWords + BitVec.ofNat 32 j).toNat))
    (g := fun j => fnv1 (mix.read j) (cache ((fnv1 (index ^^^ BitVec.ofNat 32 r) (mix.read (r % 16))
      % push.cacheItems)*kItemWords + BitVec.ofNat 32 j).toNat)) mix 0 (by decide)
    (fun i _ u hu => by rw [hu i (.inr (by omega))]) j
  simp only [Nat.zero_add] at hread
  rw [Ethash.update,hread,if_pos ⟨Nat.zero_le j,hj⟩,Nat.sub_zero,h.read _ hj,
    Words.read_fill _ _ (Nat.le_refl 16) hj]
  rfl

theorem first_eq (h : Caching c lightCache push cache) (index : Word) :
    (upTo 16 (Words.zeros 16) fun j mix =>
      mix.write j (cache ((index%push.cacheItems)*kItemWords + BitVec.ofNat 32 j).toNat)) =
      lightCache (Ethash.remainder index.toNat c) :=
  Words.ext _ _ fun j hj => by rw [Words.read_fill _ _ (Nat.le_refl 16) hj,h.read _ hj]

theorem main_eq (hB : B.Lawful val) (h : Caching c lightCache push cache) (i : Word) :
    main B push cache i =
      if push.count ≤ i then []
      else (List.range 16).map fun j =>
        (((push.slot + i)*kItemWords + BitVec.ofNat 32 j).toNat,
          (Ethash.calculateDatasetItem512 ⟨c,lightCache⟩ (push.first + i).toNat).read j) := by
  rw [main,Ethash.calculateDatasetItem512,Ethash.itemState]
  simp only [first_eq h,parents_eq h,keccak512_eq hB,BitVec.ofNat_toNat,BitVec.setWidth_eq]

end VkMiner.Progpow.Dag
