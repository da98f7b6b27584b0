import Mathlib.Logic.Function.Basic
import VkMiner.Progpow.Hash
set_option autoImplicit false

/-! A merge loses nothing of the register it is folded into. -/

namespace VkMiner.Progpow
open Loops

section Rotation

variable {x n : Word} {i : Nat}

theorem rotl32_bit (x : Word) (hn : 0 < n.toNat ∧ n.toNat < 32) (hi : i < 32) :
    (rotl32 x n).getLsbD i =
      if i < n.toNat then x.getLsbD (32 - n.toNat + i) else x.getLsbD (i - n.toNat) := by
  have hne : n ≠ 0 := fun h => by
    rw [h] at hn
    exact absurd hn.1 (Nat.lt_irrefl 0)
  have hrest : ((32 : Word) - n).toNat = 32 - n.toNat := by bv_omega
  rw [rotl32,if_neg hne,BitVec.shiftLeft_eq',BitVec.ushiftRight_eq',hrest,BitVec.getLsbD_or,
    BitVec.getLsbD_shiftLeft,BitVec.getLsbD_ushiftRight]
  by_cases h : i < n.toNat
  · simp [h]
  · simp [h,hi,BitVec.getLsbD_of_ge x (32 - n.toNat + i) (by omega)]

theorem rotl32_back (x : Word) (hn : 0 < n.toNat ∧ n.toNat < 32) :
    rotl32 (rotl32 x n) (32 - n) = x := by
  have hrest : ((32 : Word) - n).toNat = 32 - n.toNat := by bv_omega
  refine BitVec.eq_of_getLsbD_eq fun i hi => ?_
  rw [rotl32_bit _ (by omega) hi,hrest]
  by_cases h : i < 32 - n.toNat
  · rw [if_pos h,rotl32_bit x hn (by omega),if_neg (by omega)]
    congr 1
    omega
  · rw [if_neg h,rotl32_bit x hn (by omega),if_pos (by omega)]
    congr 1
    omega

end Rotation

/-- `33 * 0x3e0f83e1` is one more than a multiple of 2^32. -/
theorem times33_back (a : Word) : a * 33 * 0x3e0f83e1 = a := by
  rw [BitVec.mul_assoc,show (33 : Word) * 0x3e0f83e1 = 1#32 from rfl,BitVec.mul_one]

theorem times33_forth (a : Word) : a * 0x3e0f83e1 * 33 = a := by
  rw [BitVec.mul_assoc,show (0x3e0f83e1 : Word) * 33 = 1#32 from rfl,BitVec.mul_one]

def unmerge (c b selector : Word) : Word :=
  let x := (selector >>> 16) % 31 + 1
  match (selector % 4).toNat with
  | 0 => (c - b) * 0x3e0f83e1
  | 1 => (c * 0x3e0f83e1) ^^^ b
  | 2 => rotl32 (c ^^^ b) (32 - x)
  | _ => rotl32 (c ^^^ b) x

theorem merge_turns (selector : Word) : let x := (selector >>> 16) % 31 + 1
    (0 < x.toNat ∧ x.toNat < 32) ∧ (0 < ((32 : Word) - x).toNat ∧ ((32 : Word) - x).toNat < 32) ∧
      (32 : Word) - (32 - x) = x := by
  have hm : ((selector >>> 16) % 31).toNat < 31 := by
    rw [BitVec.toNat_umod]
    exact Nat.mod_lt _ (by decide)
  generalize (selector >>> 16) % 31 = x at hm ⊢
  refine ⟨⟨?_,?_⟩,⟨?_,?_⟩,?_⟩ <;> bv_omega

theorem xor_back (a b : Word) : a ^^^ b ^^^ b = a := by
  rw [BitVec.xor_assoc,BitVec.xor_self,BitVec.xor_zero]

theorem unmerge_merge (a b selector : Word) : unmerge (randomMerge a b selector) b selector = a := by
  obtain ⟨hx,hrest,hback⟩ := merge_turns selector
  unfold unmerge randomMerge
  match (selector % 4).toNat with
  | 0 => exact (congrArg (· * 0x3e0f83e1) (BitVec.add_sub_cancel _ _)).trans (times33_back a)
  | 1 => exact (congrArg (· ^^^ b) (times33_back _)).trans (xor_back a b)
  | 2 => exact (congrArg (rotl32 · _) (xor_back _ b)).trans (rotl32_back a hx)
  | _ + 3 =>
    have h := rotl32_back a hrest
    rw [hback] at h
    exact (congrArg (rotl32 · _) (xor_back _ b)).trans h

theorem merge_unmerge (c b selector : Word) : randomMerge (unmerge c b selector) b selector = c := by
  obtain ⟨hx,hrest,hback⟩ := merge_turns selector
  unfold unmerge randomMerge
  match (selector % 4).toNat with
  | 0 => exact (congrArg (· + b) (times33_forth _)).trans (BitVec.sub_add_cancel c b)
  | 1 => exact (congrArg (· * 33) (xor_back _ b)).trans (times33_forth c)
  | 2 =>
    have h := rotl32_back (c ^^^ b) hrest
    rw [hback] at h
    exact (congrArg (· ^^^ b) h).trans (xor_back c b)
  | _ + 3 => exact (congrArg (· ^^^ b) (rotl32_back (c ^^^ b) hx)).trans (xor_back c b)

theorem randomMerge_bijective (b selector : Word) :
    Function.Bijective fun a => randomMerge a b selector :=
  Function.bijective_iff_has_inverse.mpr ⟨fun c => unmerge c b selector,
    fun a => unmerge_merge a b selector,fun c => merge_unmerge c b selector⟩

theorem write_write (regs : Regs) (i : Nat) (x y : Word) :
    (regs.write i x).write i y = regs.write i y := by
  refine Words.ext _ _ fun j hj => ?_
  obtain rfl | hne := eq_or_ne i j
  · rw [Words.read_write_self _ _ hj,Words.read_write_self _ _ hj]
  · rw [Words.read_write_ne _ _ hne,Words.read_write_ne _ _ hne,Words.read_write_ne _ _ hne]

theorem write_read (regs : Regs) (i : Nat) : regs.write i (regs.read i) = regs := by
  refine Words.ext _ _ fun j hj => ?_
  obtain rfl | hne := eq_or_ne i j
  · rw [Words.read_write_self _ _ hj]
  · rw [Words.read_write_ne _ _ hne]

theorem write_beyond (regs : Regs) {i : Nat} (hi : ¬i < kMaxRegs) (x : Word) :
    regs.write i x = regs :=
  Words.ext _ _ fun j hj => Words.read_write_ne _ _ (by omega)

theorem mergeInto_bijective (dst sel : Word) (value : Regs → Word)
    (hv : ∀ regs x, value (regs.write dst.toNat x) = value regs) :
    Function.Bijective fun regs => mergeInto dst (value regs) sel regs := by
  refine Function.bijective_iff_has_inverse.mpr
    ⟨fun regs => regs.write dst.toNat (unmerge (regs.read dst.toNat) (value regs) sel),
      fun regs => ?_,fun regs => ?_⟩
  · by_cases hd : dst.toNat < kMaxRegs
    · simp only [mergeInto,hv]
      rw [Words.read_write_self _ _ hd,unmerge_merge,write_write,write_read]
    · simp only [mergeInto,write_beyond _ hd]
  · by_cases hd : dst.toNat < kMaxRegs
    · simp only [mergeInto,hv]
      rw [Words.read_write_self _ _ hd,merge_unmerge,write_write,write_read]
    · simp only [mergeInto,write_beyond _ hd]

theorem read_other {src dst : Word} (h : src ≠ dst) (regs : Regs) (x : Word) :
    (regs.write dst.toNat x).read src.toNat = regs.read src.toNat :=
  Words.read_write_ne _ _ fun he => h (BitVec.eq_of_toNat_eq he.symm)

theorem lanes_bijective {f : Nat → Regs → Regs} (h : ∀ l, Function.Bijective (f l)) :
    Function.Bijective fun mix : Mix => mix.lanes f := by
  constructor
  · intro mix mix' he
    refine Vector.ext fun l hl => (h l).injective ?_
    rw [← lanes_getElem mix f hl,← lanes_getElem mix' f hl]
    exact congrArg (fun mix : Mix => mix[l]) he
  · intro mix
    choose back hback using fun l => (h l).surjective
    refine ⟨mix.lanes back,Vector.ext fun l hl => ?_⟩
    rw [lanes_getElem _ f hl,lanes_getElem _ back hl,hback]

variable {program : Program} {i : Nat}

theorem cacheLane_bijective (l1 : Nat → Word) (h : program.read (kCacheBase + i * kCacheWords) ≠
    program.read (kCacheBase + i * kCacheWords + 1)) :
    Function.Bijective (cacheLane program l1 i) := by
  unfold cacheLane
  exact mergeInto_bijective _ _ _ fun regs x => by rw [read_other h]

theorem mathLane_bijective (h₁ : program.read (kMathBase + i * kMathWords) ≠
      program.read (kMathBase + i * kMathWords + 3))
    (h₂ : program.read (kMathBase + i * kMathWords + 1) ≠
      program.read (kMathBase + i * kMathWords + 3)) :
    Function.Bijective (mathLane program i) := by
  unfold mathLane
  exact mergeInto_bijective _ _ _ fun regs x => by rw [read_other h₁,read_other h₂]

theorem cacheOp_bijective (l1 : Nat → Word) (h : program.read (kCacheBase + i * kCacheWords) ≠
    program.read (kCacheBase + i * kCacheWords + 1)) :
    Function.Bijective (cacheOp program l1 i) := by
  have hlanes : cacheOp program l1 i = fun mix => mix.lanes fun _ => cacheLane program l1 i := rfl
  rw [hlanes]
  exact lanes_bijective fun _ => cacheLane_bijective l1 h

theorem mathOp_bijective (h₁ : program.read (kMathBase + i * kMathWords) ≠
      program.read (kMathBase + i * kMathWords + 3))
    (h₂ : program.read (kMathBase + i * kMathWords + 1) ≠
      program.read (kMathBase + i * kMathWords + 3)) :
    Function.Bijective (mathOp program i) := by
  have hlanes : mathOp program i = fun mix => mix.lanes fun _ => mathLane program i := rfl
  rw [hlanes]
  exact lanes_bijective fun _ => mathLane_bijective h₁ h₂

theorem dagLane_bijective (program : Program) (quad : Nat → Word) (i : Nat) :
    Function.Bijective (dagLane program quad i) :=
  mergeInto_bijective _ _ (fun _ => quad i) fun _ _ => rfl

def kawpowParams : Params where
  regs := 32
  cacheOps := 11
  mathOps := 18
  rounds := 64
  sealSeed := #v[0x72,0x41,0x56,0x45,0x4e,0x43,0x4f,0x49,0x4e,0x4b,0x41,0x57,0x50,0x4f,0x57]
  sealFinal := #v[0x72,0x41,0x56,0x45,0x4e,0x43,0x4f,0x49,0x4e]
  regs_le := by decide
  cacheOps_le := by decide
  mathOps_le := by decide
  rounds_le := by decide

/-- A merge is undone on both sides, and so is a step of a program that merges a value of other
registers than its destination, or one of the dataset. -/
theorem merges_keep_entropy :
    (∀ b selector : Word,Function.Bijective fun a => randomMerge a b selector) ∧
      (∀ a b selector : Word,Glsl.randomMerge a b selector = randomMerge a b selector) ∧
      ∀ (program : Program) (i : Nat),
        (program.read (kCacheBase + i * kCacheWords) ≠
            program.read (kCacheBase + i * kCacheWords + 1) →
          ∀ l1, Function.Bijective (cacheOp program l1 i)) ∧
        (program.read (kMathBase + i * kMathWords) ≠
            program.read (kMathBase + i * kMathWords + 3) →
          program.read (kMathBase + i * kMathWords + 1) ≠
            program.read (kMathBase + i * kMathWords + 3) →
          Function.Bijective (mathOp program i)) ∧
        ∀ quad : Nat → Nat → Word,
          Function.Bijective fun mix : Mix => mix.lanes fun l => dagLane program (quad l) i :=
  ⟨randomMerge_bijective,randomMerge_eq,fun program i =>
    ⟨fun hsrc l1 => cacheOp_bijective l1 hsrc,mathOp_bijective,
      fun quad => lanes_bijective fun l => dagLane_bijective program (quad l) i⟩⟩

/-- Words of the first steps of KawPoW's period 6, and those of its eighth math step, which folds
the xor of registers 17 and 5 into register 5. -/
theorem kawpow_words :
    [kCacheBase,kCacheBase + 1,kMathBase,kMathBase + 1,kMathBase + 3].map
        (buildProgram kawpowParams 6).read = [26,8,9,14,4] ∧
      [0,1,2,3,4].map (fun i => (buildProgram kawpowParams 6).read
        (kMathBase + 7 * kMathWords + i)) = [17,5,3807742980,5,3623094581] := by
  decide +kernel

theorem merges_keep_entropy_kawpow :
    Function.Bijective (cacheOp (buildProgram kawpowParams 6) (fun _ => 0) 0) ∧
      Function.Bijective (mathOp (buildProgram kawpowParams 6) 0) := by
  have hwords := kawpow_words.1
  simp only [List.map_cons,List.cons.injEq] at hwords
  obtain ⟨h₀,h₁,h₂,h₃,h₄,-⟩ := hwords
  have hsteps := merges_keep_entropy.2.2 (buildProgram kawpowParams 6) 0
  simp only [Nat.zero_mul,Nat.add_zero,h₀,h₁,h₂,h₃,h₄] at hsteps
  exact ⟨hsteps.1 (by decide) _,hsteps.2.1 (by decide) (by decide)⟩

/-- And makes 33 times register 17 of it, whatever stood there. -/
theorem kawpow_lane (regs : Regs) : mathLane (buildProgram kawpowParams 6) 7 regs =
    regs.write 5 (regs.read 17 * 33) := by
  have hwords := kawpow_words.2
  simp only [List.map_cons,List.cons.injEq,Nat.add_zero] at hwords
  obtain ⟨h₀,h₁,h₂,h₃,h₄,-⟩ := hwords
  have hmath (a b : Word) : randomMath a b 3807742980 = a ^^^ b := rfl
  have hmerge (a b : Word) : randomMerge a b 3623094581 = (a ^^^ b) * 33 := rfl
  have hxor (a b : Word) : b ^^^ (a ^^^ b) = a := by
    rw [BitVec.xor_comm a b,← BitVec.xor_assoc,BitVec.xor_self,BitVec.zero_xor]
  simp only [mathLane,mergeInto,h₀,h₁,h₂,h₃,h₄,hmath,hmerge]
  exact congrArg (fun x => regs.write 5 (x * 33)) (hxor _ _)

theorem not_every_merge_keeps_entropy : ¬∀ (params : Params) (period : BitVec 64) (i : Nat),
    i < params.mathOps.toNat → Function.Bijective (mathOp (buildProgram params period) i) := by
  intro hall
  have hinj := (hall kawpowParams 6 7 (by decide)).injective
  have he : mathOp (buildProgram kawpowParams 6) 7 (Vector.replicate _ (Words.zeros _)) =
      mathOp (buildProgram kawpowParams 6) 7 (Vector.replicate _ ((Words.zeros _).write 5 1)) := by
    refine Vector.ext fun l hl => ?_
    rw [mathOp_getElem _ _ _ hl,mathOp_getElem _ _ _ hl,kawpow_lane,kawpow_lane]
    rw [Vector.getElem_replicate,Vector.getElem_replicate,write_write,
      Words.read_write_ne _ _ (by decide)]
  have hregs := congrArg (fun mix : Mix => (mix[0]).read 5) (hinj he)
  simp only [Vector.getElem_replicate] at hregs
  exact absurd hregs (by decide)

end VkMiner.Progpow
