import Mathlib.Data.List.Nodup
import Mathlib.Data.List.Perm.Subperm
import Mathlib.Data.Nat.ModEq
import Mathlib.Logic.Equiv.Basic
import VkMiner.Progpow.Program
set_option autoImplicit false

/-! Whatever is drawn, a program names registers that there are, and its destinations go round
them. -/

namespace VkMiner.Progpow
open Loops

/-! ### The shuffled sequences -/

/-- The first `n` entries are the numbers below `n` in some order. -/
structure Shuffled (n : Nat) (seq : Words kMaxRegs) : Prop where
  lt : ∀ i < n,(seq.read i).toNat < n
  inj : ∀ i < n,∀ j < n,seq.read i = seq.read j → i = j

section Sequences

variable {n i j k : Nat} {seq : Words kMaxRegs}

theorem exchange_read (seq : Words kMaxRegs) (hi : i < kMaxRegs) (hj : j < kMaxRegs) (k : Nat) :
    (exchange seq i j).read k = seq.read (Equiv.swap i j k) := by
  rw [exchange]
  obtain rfl | hkj := eq_or_ne j k
  · rw [Words.read_write_self _ _ hj,Equiv.swap_apply_right]
  · rw [Words.read_write_ne _ _ hkj]
    obtain rfl | hki := eq_or_ne i k
    · rw [Words.read_write_self _ _ hi,Equiv.swap_apply_left]
    · rw [Words.read_write_ne _ _ hki,Equiv.swap_apply_of_ne_of_ne hki.symm hkj.symm]

theorem swap_lt (hi : i < n) (hj : j < n) (hk : k < n) : Equiv.swap i j k < n := by
  rw [Equiv.swap_apply_def]
  split_ifs <;> assumption

theorem Shuffled.exchange (h : Shuffled n seq) (hn : n ≤ kMaxRegs) (hi : i < n) (hj : j < n) :
    Shuffled n (exchange seq i j) where
  lt k hk := by
    rw [exchange_read seq (by omega) (by omega)]
    exact h.lt _ (swap_lt hi hj hk)
  inj k hk l hl he := by
    rw [exchange_read seq (by omega) (by omega),exchange_read seq (by omega) (by omega)] at he
    exact (Equiv.swap i j).injective (h.inj _ (swap_lt hi hj hk) _ (swap_lt hi hj hl) he)

theorem Shuffled.window (h : Shuffled n seq) (s : Nat) :
    ((List.range n).map fun k => seq.read ((s + k) % n)).Perm
      ((List.range n).map (BitVec.ofNat 32)) := by
  refine List.Subperm.perm_of_length_le (List.Nodup.subperm ?_ ?_) (by simp)
  · refine List.Nodup.map_on (fun k hk l hl he => ?_) List.nodup_range
    have hk := List.mem_range.mp hk
    have hl := List.mem_range.mp hl
    have hmod := h.inj _ (Nat.mod_lt _ (by omega)) _ (Nat.mod_lt _ (by omega)) he
    have hmod : k % n = l % n := Nat.ModEq.add_left_cancel' s hmod
    rwa [Nat.mod_eq_of_lt hk,Nat.mod_eq_of_lt hl] at hmod
  · intro x hx
    obtain ⟨k,hk,rfl⟩ := List.mem_map.mp hx
    have hk := List.mem_range.mp hk
    refine List.mem_map.mpr ⟨_,List.mem_range.mpr (h.lt _ (Nat.mod_lt (s + k) (by omega))),?_⟩
    rw [BitVec.ofNat_toNat,BitVec.setWidth_eq]

end Sequences

/-! ### The generator up to the draws -/

theorem number_read (regs : Word) (hr : regs.toNat ≤ kMaxRegs) (b : Build) {i : Nat}
    (hi : i < regs.toNat) : (b.number regs).dstSeq.read i = BitVec.ofNat 32 i ∧
      (b.number regs).srcSeq.read i = BitVec.ofNat 32 i := by
  have hd := upTo_hom Build.dstSeq b (n := regs.toNat) (f := fun i b =>
    { b with
      dstSeq := b.dstSeq.write i (BitVec.ofNat 32 i)
      srcSeq := b.srcSeq.write i (BitVec.ofNat 32 i) })
    (g := fun i seq => seq.write i (BitVec.ofNat 32 i)) fun _ _ _ => rfl
  have hs := upTo_hom Build.srcSeq b (n := regs.toNat) (f := fun i b =>
    { b with
      dstSeq := b.dstSeq.write i (BitVec.ofNat 32 i)
      srcSeq := b.srcSeq.write i (BitVec.ofNat 32 i) })
    (g := fun i seq => seq.write i (BitVec.ofNat 32 i)) fun _ _ _ => rfl
  rw [Build.number,hd,hs]
  exact ⟨Words.read_fill _ _ hr hi,Words.read_fill _ _ hr hi⟩

/-- Both sequences go over the registers. -/
structure Ready (regs : Word) (b : Build) : Prop where
  dst : Shuffled regs.toNat b.dstSeq
  src : Shuffled regs.toNat b.srcSeq

theorem shuffled_of_numbers {n : Nat} {seq : Words kMaxRegs} (hn : n ≤ kMaxRegs)
    (h : ∀ i < n,seq.read i = BitVec.ofNat 32 i) : Shuffled n seq where
  lt i hi := by
    rw [h i hi,BitVec.toNat_ofNat]
    exact Nat.lt_of_le_of_lt (Nat.mod_le _ _) hi
  inj i hi j hj he := by
    have hmax : kMaxRegs < 2^32 := by decide
    rw [h i hi,h j hj] at he
    have he := congrArg BitVec.toNat he
    rwa [BitVec.toNat_ofNat,BitVec.toNat_ofNat,Nat.mod_eq_of_lt (by omega),
      Nat.mod_eq_of_lt (by omega)] at he

theorem Ready.shuffle {regs : Word} {b : Build} (h : Ready regs b) (hr : regs.toNat ≤ kMaxRegs)
    {i : Nat} (hi : 0 < i ∧ i ≤ regs.toNat) : Ready regs (b.shuffle i) := by
  have hlt (x : Word) : (x % BitVec.ofNat 32 i).toNat < regs.toNat := by
    have hmax : kMaxRegs < 2^32 := by decide
    rw [BitVec.toNat_umod,BitVec.toNat_ofNat,Nat.mod_eq_of_lt (by omega : i < 2^32)]
    exact Nat.lt_of_lt_of_le (Nat.mod_lt _ hi.1) hi.2
  exact ⟨h.dst.exchange hr (by omega) (hlt _),h.src.exchange hr (by omega) (hlt _)⟩

theorem ready_shuffles (regs : Word) (hr : regs.toNat ≤ kMaxRegs) (b : Build) :
    Ready regs ((b.number regs).shuffles regs) := by
  refine upTo_invariant (P := fun _ b => Ready regs b) ?_ fun j hj b hb => ?_
  · exact ⟨shuffled_of_numbers hr fun i hi => (number_read regs hr b hi).1,
      shuffled_of_numbers hr fun i hi => (number_read regs hr b hi).2⟩
  · exact hb.shuffle hr (by omega)

theorem shuffles_frame (regs : Word) (b : Build) :
    ((b.number regs).shuffles regs).dstCounter = b.dstCounter ∧
      ((b.number regs).shuffles regs).out = b.out := by
  have hnumber : (b.number regs).dstCounter = b.dstCounter ∧ (b.number regs).out = b.out :=
    upTo_invariant (P := fun _ (c : Build) => c.dstCounter = b.dstCounter ∧ c.out = b.out)
      ⟨rfl,rfl⟩ fun _ _ _ h => h
  exact upTo_invariant (P := fun _ (c : Build) => c.dstCounter = b.dstCounter ∧ c.out = b.out)
    hnumber fun _ _ _ h => h

/-! ### What each operation stores -/

theorem store_read (b : Build) (op : Nat) (words : List Word) (h : op + words.length ≤ kProgramWords)
    (p : Nat) : (b.store op words).out.read p =
      if op ≤ p ∧ p < op + words.length then words.getD (p - op) 0 else b.out.read p := by
  suffices hfold : ∀ (out : Program),((words.zipIdx op).foldl (fun out xi => out.write xi.2 xi.1)
      out).read p = if op ≤ p ∧ p < op + words.length then words.getD (p - op) 0 else out.read p from
    hfold b.out
  intro out
  induction words generalizing op out with
  | nil => rw [if_neg (by simp)]; rfl
  | cons x words ih =>
    rw [List.zipIdx_cons,List.foldl_cons]
    rw [List.length_cons] at h ⊢
    rw [ih (op + 1) (by omega)]
    obtain rfl | hne := eq_or_ne op p
    · rw [if_neg (by omega),if_pos (by omega),Words.read_write_self _ _ (by omega),Nat.sub_self]
      rfl
    · rw [Words.read_write_ne _ _ hne]
      by_cases hin : op + 1 ≤ p ∧ p < op + 1 + words.length
      · rw [if_pos hin,if_pos (by omega),show p - op = p - (op + 1) + 1 from by omega]
        rfl
      · rw [if_neg hin,if_neg (by omega)]

theorem next_read {regs : Word} {seq : Words kMaxRegs} {counter : Word} {d : Nat}
    (hc : counter = BitVec.ofNat 32 d) (hd : d < 2^32) :
    seq.read (counter % regs).toNat = seq.read (d % regs.toNat) := by
  rw [hc,BitVec.toNat_umod,BitVec.toNat_ofNat,Nat.mod_eq_of_lt hd]

theorem Shuffled.next_lt {regs : Word} {seq : Words kMaxRegs} (h : Shuffled regs.toNat seq)
    (hr : 0 < regs.toNat) (counter : Word) : (seq.read (counter % regs).toNat).toNat < regs.toNat := by
  refine h.lt _ ?_
  rw [BitVec.toNat_umod]
  exact Nat.mod_lt _ hr

theorem sources_of (regs rnd : Word) (hr : 2 ≤ regs.toNat) (hmax : regs.toNat ≤ kMaxRegs) :
    let rnd := rnd % (regs * (regs - 1))
    let src₁ := rnd % regs
    let src₂ := if src₁ ≤ rnd / regs then rnd / regs + 1 else rnd / regs
    src₁.toNat < regs.toNat ∧ src₂.toNat < regs.toNat ∧ src₁ ≠ src₂ := by
  have hless : (regs - 1).toNat = regs.toNat - 1 := by bv_omega
  have hbound : regs.toNat * (regs.toNat - 1) < 2^32 := by
    have h₁ : regs.toNat ≤ 32 := hmax
    have := Nat.mul_le_mul h₁ (by omega : regs.toNat - 1 ≤ 31)
    omega
  have hproduct : (regs * (regs - 1)).toNat = regs.toNat * (regs.toNat - 1) := by
    rw [BitVec.toNat_mul,hless,Nat.mod_eq_of_lt hbound]
  have hrnd : (rnd % (regs * (regs - 1))).toNat < regs.toNat * (regs.toNat - 1) := by
    rw [BitVec.toNat_umod,hproduct]
    exact Nat.mod_lt _ (Nat.mul_pos (by omega) (by omega))
  generalize rnd % (regs * (regs - 1)) = rnd at hrnd
  have h₁ : (rnd % regs).toNat < regs.toNat := by
    rw [BitVec.toNat_umod]
    exact Nat.mod_lt _ (by omega)
  have h₂ : (rnd / regs).toNat < regs.toNat - 1 := by
    rw [BitVec.toNat_udiv]
    exact Nat.div_lt_of_lt_mul hrnd
  have hmax : kMaxRegs = 32 := rfl
  refine ⟨h₁,?_,?_⟩
  · split
    · bv_omega
    · bv_omega
  · intro he
    have he := congrArg BitVec.toNat he
    split at he
    case isTrue hle =>
      have hle := BitVec.le_def.mp hle
      have hsum : (rnd / regs + 1).toNat = (rnd / regs).toNat + 1 := by bv_omega
      omega
    case isFalse hle =>
      have hle := mt BitVec.le_def.mpr hle
      omega

/-! ### The draws -/

def Params.draws (params : Params) (i : Nat) : Nat :=
  min i params.cacheOps.toNat + min i params.mathOps.toNat

/-- The first `i` passes of the loop, seen from behind. -/
structure Drawn (params : Params) (seq : Words kMaxRegs) (i : Nat) (b : Build) : Prop where
  ready : Ready params.regs b
  dstSeq : b.dstSeq = seq
  counter : b.dstCounter = BitVec.ofNat 32 (params.draws i)
  cache : ∀ j < i,j < params.cacheOps.toNat →
    (b.out.read (kCacheBase + j * kCacheWords)).toNat < params.regs.toNat ∧
      b.out.read (kCacheBase + j * kCacheWords + 1) = seq.read (params.draws j % params.regs.toNat)
  math : ∀ j < i,j < params.mathOps.toNat →
    ((b.out.read (kMathBase + j * kMathWords)).toNat < params.regs.toNat ∧
      (b.out.read (kMathBase + j * kMathWords + 1)).toNat < params.regs.toNat ∧
      b.out.read (kMathBase + j * kMathWords) ≠ b.out.read (kMathBase + j * kMathWords + 1)) ∧
      b.out.read (kMathBase + j * kMathWords + 3) = seq.read
        ((params.draws j + if j < params.cacheOps.toNat then 1 else 0) % params.regs.toNat)
  blank : ∀ p,¬(p < kCacheBase + min i params.cacheOps.toNat * kCacheWords) →
    ¬(kMathBase ≤ p ∧ p < kMathBase + min i params.mathOps.toNat * kMathWords) → b.out.read p = 0

theorem drawn_zero {params : Params} {b : Build} (h : Ready params.regs b)
    (hc : b.dstCounter = 0) (hz : ∀ p,b.out.read p = 0) : Drawn params b.dstSeq 0 b where
  ready := h
  dstSeq := rfl
  counter := by
    rw [hc,Params.draws,Nat.zero_min,Nat.zero_min]
    rfl
  cache j hj := absurd hj (Nat.not_lt_zero j)
  math j hj := absurd hj (Nat.not_lt_zero j)
  blank p _ _ := hz p

section Step

variable {params : Params} {seq : Words kMaxRegs} {i : Nat} {b : Build}

theorem cacheOp_out (b : Build) (regs : Word) (hi : i < kMaxCacheOps) : ∃ sel,∀ p,
    (b.cacheOp regs i).out.read p =
      if kCacheBase + i * kCacheWords ≤ p ∧ p < kCacheBase + i * kCacheWords + 3 then
        [b.srcSeq.read (b.srcCounter % regs).toNat,b.dstSeq.read (b.dstCounter % regs).toNat,
          sel].getD (p - (kCacheBase + i * kCacheWords)) 0
      else b.out.read p := by
  refine ⟨_,fun p => store_read _ _ _ ?_ p⟩
  simp only [List.length_cons,List.length_nil,kCacheBase,kCacheWords,kProgramWords,kDagBase,
    kMathBase,kMaxCacheOps,kMaxMathOps,kMathWords,kDagLoads,kDagWords] at hi ⊢
  omega

theorem mathOp_out (b : Build) (regs : Word) (hr : 2 ≤ regs.toNat) (hmax : regs.toNat ≤ kMaxRegs)
    (hi : i < kMaxMathOps) : ∃ src₁ src₂ sel₁ sel₂ : Word,
    (src₁.toNat < regs.toNat ∧ src₂.toNat < regs.toNat ∧ src₁ ≠ src₂) ∧ ∀ p,
    (b.mathOp regs i).out.read p =
      if kMathBase + i * kMathWords ≤ p ∧ p < kMathBase + i * kMathWords + 5 then
        [src₁,src₂,sel₁,b.dstSeq.read (b.dstCounter % regs).toNat,
          sel₂].getD (p - (kMathBase + i * kMathWords)) 0
      else b.out.read p := by
  refine ⟨_,_,_,_,sources_of regs b.rng.next.1 hr hmax,fun p => store_read _ _ _ ?_ p⟩
  simp only [List.length_cons,List.length_nil,kCacheBase,kCacheWords,kProgramWords,kDagBase,
    kMathBase,kMaxCacheOps,kMaxMathOps,kMathWords,kDagLoads,kDagWords] at hi ⊢
  omega

def InPass (params : Params) (i p : Nat) : Prop :=
  (i < params.cacheOps.toNat ∧ kCacheBase + i * kCacheWords ≤ p ∧ p < kCacheBase + i * kCacheWords + 3) ∨
    (i < params.mathOps.toNat ∧ kMathBase + i * kMathWords ≤ p ∧ p < kMathBase + i * kMathWords + 5)

theorem cachePart (h : Drawn params seq i b) (hr : 2 ≤ params.regs.toNat) :
    let c := if i < params.cacheOps.toNat then b.cacheOp params.regs i else b
    Ready params.regs c ∧ c.dstSeq = seq ∧
      c.dstCounter = BitVec.ofNat 32 (params.draws i + if i < params.cacheOps.toNat then 1 else 0) ∧
      (i < params.cacheOps.toNat →
        (c.out.read (kCacheBase + i * kCacheWords)).toNat < params.regs.toNat ∧
          c.out.read (kCacheBase + i * kCacheWords + 1) =
            seq.read (params.draws i % params.regs.toNat)) ∧
      ∀ p,¬(i < params.cacheOps.toNat ∧ kCacheBase + i * kCacheWords ≤ p ∧
        p < kCacheBase + i * kCacheWords + 3) → c.out.read p = b.out.read p := by
  have hdraws : params.draws i < 2^32 := by
    have hc := params.cacheOps_le
    have hm := params.mathOps_le
    simp only [kMaxCacheOps,kMaxMathOps] at hc hm
    rw [Params.draws]
    omega
  intro c
  by_cases hi : i < params.cacheOps.toNat
  · obtain ⟨sel,hout⟩ := cacheOp_out b params.regs (Nat.lt_of_lt_of_le hi params.cacheOps_le)
    have hc : c = b.cacheOp params.regs i := if_pos hi
    refine ⟨?_,?_,?_,fun _ => ⟨?_,?_⟩,fun p hp => ?_⟩
    · rw [hc]
      exact ⟨h.ready.dst,h.ready.src⟩
    · rw [hc]
      exact h.dstSeq
    · rw [hc,if_pos hi,BitVec.ofNat_add,← h.counter]
      rfl
    · rw [hc,hout,if_pos (by omega),Nat.sub_self]
      exact h.ready.src.next_lt (by omega) _
    · rw [hc,hout,if_pos (by omega),Nat.add_sub_cancel_left]
      show b.dstSeq.read _ = _
      rw [h.dstSeq,next_read h.counter hdraws]
    · rw [hc,hout,if_neg fun hin => hp ⟨hi,hin⟩]
  · have hc : c = b := if_neg hi
    rw [hc,if_neg hi,Nat.add_zero]
    exact ⟨h.ready,h.dstSeq,h.counter,fun hlt => absurd hlt hi,fun p _ => rfl⟩

theorem step_out (h : Drawn params seq i b) (hr : 2 ≤ params.regs.toNat) :
    Ready params.regs (b.step params i) ∧ (b.step params i).dstSeq = seq ∧
      (b.step params i).dstCounter = BitVec.ofNat 32 (params.draws i +
        (if i < params.cacheOps.toNat then 1 else 0) + if i < params.mathOps.toNat then 1 else 0) ∧
      (i < params.cacheOps.toNat →
        ((b.step params i).out.read (kCacheBase + i * kCacheWords)).toNat < params.regs.toNat ∧
          (b.step params i).out.read (kCacheBase + i * kCacheWords + 1) =
            seq.read (params.draws i % params.regs.toNat)) ∧
      (i < params.mathOps.toNat →
        (((b.step params i).out.read (kMathBase + i * kMathWords)).toNat < params.regs.toNat ∧
          ((b.step params i).out.read (kMathBase + i * kMathWords + 1)).toNat < params.regs.toNat ∧
          (b.step params i).out.read (kMathBase + i * kMathWords) ≠
            (b.step params i).out.read (kMathBase + i * kMathWords + 1)) ∧
          (b.step params i).out.read (kMathBase + i * kMathWords + 3) = seq.read
            ((params.draws i + if i < params.cacheOps.toNat then 1 else 0) % params.regs.toNat)) ∧
      ∀ p,¬InPass params i p → (b.step params i).out.read p = b.out.read p := by
  obtain ⟨hready,hseq,hcounter,hcache,hframe⟩ := cachePart h hr
  have hstep : b.step params i = let c := if i < params.cacheOps.toNat then b.cacheOp params.regs i else b
    if i < params.mathOps.toNat then c.mathOp params.regs i else c := rfl
  rw [hstep]
  generalize (if i < params.cacheOps.toNat then b.cacheOp params.regs i else b) = c at hready hseq hcounter hcache hframe
  have hdraws : params.draws i + (if i < params.cacheOps.toNat then 1 else 0) < 2^32 := by
    have hc := params.cacheOps_le
    have hm := params.mathOps_le
    simp only [kMaxCacheOps,kMaxMathOps] at hc hm
    rw [Params.draws]
    split <;> omega
  by_cases hi : i < params.mathOps.toNat
  · obtain ⟨src₁,src₂,sel₁,sel₂,hsrc,hout⟩ := mathOp_out c params.regs hr params.regs_le
      (Nat.lt_of_lt_of_le hi params.mathOps_le)
    simp only [if_pos hi]
    refine ⟨⟨hready.dst,hready.src⟩,hseq,?_,fun hc => ?_,fun _ => ?_,fun p hp => ?_⟩
    · rw [BitVec.ofNat_add,← hcounter]
      rfl
    · have hmax := params.cacheOps_le
      simp only [kMaxCacheOps] at hmax
      rw [hout,hout,if_neg,if_neg]
      · exact hcache hc
      · simp only [kCacheBase,kCacheWords,kMathBase,kMaxCacheOps]
        omega
      · simp only [kCacheBase,kCacheWords,kMathBase,kMaxCacheOps]
        omega
    · rw [hout,hout,hout,if_pos (by omega),if_pos (by omega),if_pos (by omega),Nat.sub_self,
        Nat.add_sub_cancel_left,Nat.add_sub_cancel_left]
      refine ⟨hsrc,?_⟩
      show c.dstSeq.read _ = _
      rw [hseq,next_read hcounter hdraws]
    · rw [hout,if_neg fun hin => hp (.inr ⟨hi,hin⟩),hframe p fun hin => hp (.inl hin)]
  · simp only [if_neg hi,Nat.add_zero]
    exact ⟨hready,hseq,hcounter,hcache,fun hlt => absurd hlt hi,
      fun p hp => hframe p fun hin => hp (.inl hin)⟩

theorem Params.draws_succ (params : Params) (i : Nat) : params.draws (i + 1) = params.draws i +
    (if i < params.cacheOps.toNat then 1 else 0) + if i < params.mathOps.toNat then 1 else 0 := by
  rw [Params.draws,Params.draws]
  split <;> split <;> omega

theorem Drawn.step (h : Drawn params seq i b) (hr : 2 ≤ params.regs.toNat) :
    Drawn params seq (i + 1) (b.step params i) := by
  obtain ⟨hready,hseq,hcounter,hcache,hmath,hframe⟩ := step_out h hr
  have hc := params.cacheOps_le
  simp only [kMaxCacheOps] at hc
  refine ⟨hready,hseq,by rw [hcounter,params.draws_succ],fun j hj hjc => ?_,fun j hj hjm => ?_,
    fun p hpc hpm => ?_⟩
  · obtain hlt | rfl := Nat.lt_succ_iff_lt_or_eq.mp hj
    · have hout (k : Nat) (hk : k < 3) : ¬InPass params i (kCacheBase + j * kCacheWords + k) := by
        simp only [InPass,kCacheBase,kCacheWords,kMathBase,kMaxCacheOps,kMathWords]
        omega
      rw [hframe (kCacheBase + j * kCacheWords) (hout 0 (by omega)),hframe _ (hout 1 (by omega))]
      exact h.cache j hlt hjc
    · exact hcache hjc
  · obtain hlt | rfl := Nat.lt_succ_iff_lt_or_eq.mp hj
    · have hout (k : Nat) (hk : k < 5) : ¬InPass params i (kMathBase + j * kMathWords + k) := by
        simp only [InPass,kCacheBase,kCacheWords,kMathBase,kMaxCacheOps,kMathWords]
        omega
      rw [hframe (kMathBase + j * kMathWords) (hout 0 (by omega)),hframe _ (hout 1 (by omega)),
        hframe _ (hout 3 (by omega))]
      exact h.math j hlt hjm
    · exact hmath hjm
  · simp only [kCacheBase,kCacheWords,kMathBase,kMaxCacheOps,kMathWords] at hpc hpm
    rw [hframe p]
    · refine h.blank p ?_ ?_
      · simp only [kCacheBase,kCacheWords]
        omega
      · simp only [kCacheBase,kCacheWords,kMathBase,kMaxCacheOps,kMathWords]
        omega
    · simp only [InPass,kCacheBase,kCacheWords,kMathBase,kMaxCacheOps,kMathWords]
      omega

end Step

/-! ### The loads, and the whole program -/

/-- The first `i` loads, behind the `d` destinations that the loop draws. -/
structure Loaded (regs : Word) (seq : Words kMaxRegs) (d : Nat) (out : Program) (i : Nat) (b : Build) :
    Prop where
  dstSeq : b.dstSeq = seq
  counter : b.dstCounter = BitVec.ofNat 32 (d + (i - 1))
  dst : ∀ j < i,b.out.read (kDagBase + j * kDagWords) =
    if j = 0 then 0 else seq.read ((d + (j - 1)) % regs.toNat)
  frame : ∀ p < kDagBase,b.out.read p = out.read p

theorem Loaded.step {regs : Word} {seq : Words kMaxRegs} {d i : Nat} {out : Program} {b : Build}
    (h : Loaded regs seq d out i b) (hi : i < kDagLoads) (hd : d + kDagLoads < 2^32) :
    Loaded regs seq d out (i + 1) (b.dagOp regs i) := by
  have hout : ∃ sel,∀ p,(b.dagOp regs i).out.read p =
      if kDagBase + i * kDagWords ≤ p ∧ p < kDagBase + i * kDagWords + 2 then
        [if i = 0 then 0 else seq.read ((d + (i - 1)) % regs.toNat),sel].getD
          (p - (kDagBase + i * kDagWords)) 0
      else b.out.read p := by
    simp only [kDagLoads] at hi hd
    have hdst : (if i = 0 then (0,b) else b.nextDst regs).1 =
        if i = 0 then 0 else seq.read ((d + (i - 1)) % regs.toNat) := by
      split
      · rfl
      · rw [← h.dstSeq,← next_read h.counter (by omega)]
        rfl
    have hkept : (if i = 0 then (0,b) else b.nextDst regs).2.out = b.out := by
      split <;> rfl
    rw [← hdst,← hkept]
    refine ⟨_,fun p => store_read _ _ _ ?_ p⟩
    simp only [List.length_cons,List.length_nil,kProgramWords,kDagLoads,kDagWords]
    omega
  obtain ⟨sel,hout⟩ := hout
  refine ⟨?_,?_,fun j hj => ?_,fun p hp => ?_⟩
  · show (if i = 0 then (0,b) else b.nextDst regs).2.dstSeq = seq
    split <;> exact h.dstSeq
  · have hcounter : (b.dagOp regs i).dstCounter = b.dstCounter + if i = 0 then 0 else 1 := by
      show (if i = 0 then (0,b) else b.nextDst regs).2.dstCounter = _
      split
      · exact (BitVec.add_zero _).symm
      · rfl
    rw [hcounter,h.counter]
    split
    case isTrue hz =>
      rw [hz]
      exact BitVec.add_zero _
    case isFalse hz =>
      rw [show d + (i + 1 - 1) = d + (i - 1) + 1 from by omega,BitVec.ofNat_add (d + (i - 1)) 1]
      rfl
  · obtain hlt | rfl := Nat.lt_succ_iff_lt_or_eq.mp hj
    · rw [hout,if_neg]
      · exact h.dst j hlt
      · simp only [kDagWords]
        omega
    · rw [hout,if_pos (by omega),Nat.sub_self]
      rfl
  · rw [hout,if_neg (by omega),h.frame p hp]

theorem generated (params : Params) (period : BitVec 64) (hr : 2 ≤ params.regs.toNat) :
    ∃ seq b,Shuffled params.regs.toNat seq ∧ Drawn params seq params.steps.toNat b ∧
      Loaded params.regs seq (params.draws params.steps.toNat) b.out kDagLoads
        (b.dagOps params.regs) ∧
      buildProgram params period = (b.dagOps params.regs).out := by
  obtain ⟨b₀,hcounter,hzero,hbuilt⟩ : ∃ b₀ : Build,b₀.dstCounter = 0 ∧ (∀ p,b₀.out.read p = 0) ∧
      buildProgram params period =
        ((((b₀.number params.regs).shuffles params.regs).steps params).dagOps params.regs).out := by
    refine ⟨⟨_,_,_,_,_,_⟩,?_,fun p => ?_,rfl⟩
    · rfl
    · refine upTo_invariant (P := fun _ (out : Program) => out.read p = 0) (Words.read_zeros _ _)
        fun i hi out hout => ?_
      obtain rfl | hne := eq_or_ne i p
      · exact Words.read_write_self _ _ hi
      · rwa [Words.read_write_ne _ _ hne]
  have hframe := shuffles_frame params.regs b₀
  have hready := ready_shuffles params.regs params.regs_le b₀
  generalize (b₀.number params.regs).shuffles params.regs = b₁ at hframe hready hbuilt
  have hdrawn : Drawn params b₁.dstSeq params.steps.toNat (b₁.steps params) := by
    refine upTo_invariant (P := fun i b => Drawn params b₁.dstSeq i b) ?_ fun i _ b hb => hb.step hr
    exact drawn_zero hready (hframe.1.trans hcounter) fun p => hframe.2 ▸ hzero p
  generalize b₁.steps params = b₂ at hdrawn hbuilt
  refine ⟨b₁.dstSeq,b₂,hready.dst,hdrawn,?_,hbuilt⟩
  refine upTo_invariant (P := fun i b => Loaded params.regs b₁.dstSeq _ b₂.out i b) ?_
    fun i hi b hb => hb.step hi ?_
  · exact ⟨hdrawn.dstSeq,hdrawn.counter,fun j hj => absurd hj (Nat.not_lt_zero j),fun _ _ => rfl⟩
  · have hc := params.cacheOps_le
    have hm := params.mathOps_le
    simp only [kMaxCacheOps,kMaxMathOps,kDagLoads] at hc hm ⊢
    rw [Params.draws]
    omega

/-! ### Well-formed programs -/

inductive NamesRegister (params : Params) : Nat → Prop
  | cacheSrc (i : Nat) (hi : i < params.cacheOps.toNat) :
      NamesRegister params (kCacheBase + i * kCacheWords)
  | cacheDst (i : Nat) (hi : i < params.cacheOps.toNat) :
      NamesRegister params (kCacheBase + i * kCacheWords + 1)
  | mathSrc₁ (i : Nat) (hi : i < params.mathOps.toNat) :
      NamesRegister params (kMathBase + i * kMathWords)
  | mathSrc₂ (i : Nat) (hi : i < params.mathOps.toNat) :
      NamesRegister params (kMathBase + i * kMathWords + 1)
  | mathDst (i : Nat) (hi : i < params.mathOps.toNat) :
      NamesRegister params (kMathBase + i * kMathWords + 3)
  | dagDst (i : Nat) (hi : i < kDagLoads) : NamesRegister params (kDagBase + i * kDagWords)

def Reached (params : Params) (p : Nat) : Prop :=
  (kCacheBase ≤ p ∧ p < kCacheBase + params.cacheOps.toNat * kCacheWords) ∨
    (kMathBase ≤ p ∧ p < kMathBase + params.mathOps.toNat * kMathWords) ∨
    (kDagBase ≤ p ∧ p < kDagBase + kDagLoads * kDagWords)

def drawnInPass (params : Params) (program : Program) (i : Nat) : List Word :=
  (if i < params.cacheOps.toNat then [program.read (kCacheBase + i * kCacheWords + 1)] else []) ++
    if i < params.mathOps.toNat then [program.read (kMathBase + i * kMathWords + 3)] else []

def destinations (params : Params) (program : Program) : List Word :=
  (List.range params.steps.toNat).flatMap (drawnInPass params program) ++
    (List.range (kDagLoads - 1)).map fun i => program.read (kDagBase + (i + 1) * kDagWords)

structure WellFormed (params : Params) (program : Program) : Prop where
  names : ∀ p,NamesRegister params p → (program.read p).toNat < params.regs.toNat
  sources : ∀ i < params.mathOps.toNat,program.read (kMathBase + i * kMathWords) ≠
    program.read (kMathBase + i * kMathWords + 1)
  windows : ∀ s,s + params.regs.toNat ≤ (destinations params program).length →
    (((destinations params program).drop s).take params.regs.toNat).Perm
      ((List.range params.regs.toNat).map (BitVec.ofNat 32))
  first : program.read kDagBase = 0
  blank : ∀ p,¬Reached params p → program.read p = 0

section Generated

variable {params : Params} {seq : Words kMaxRegs} {b c : Build}

theorem Params.steps_toNat (params : Params) :
    params.steps.toNat = max params.cacheOps.toNat params.mathOps.toNat := by
  rw [Params.steps]
  split
  case isTrue h =>
    have h := BitVec.lt_def.mp h
    omega
  case isFalse h =>
    have h := mt BitVec.lt_def.mpr h
    omega

theorem before_loads (params : Params) {i k : Nat} :
    (i < params.cacheOps.toNat → k < 3 → kCacheBase + i * kCacheWords + k < kDagBase) ∧
      (i < params.mathOps.toNat → k < 5 → kMathBase + i * kMathWords + k < kDagBase) := by
  have hc := params.cacheOps_le
  have hm := params.mathOps_le
  simp only [kCacheBase,kCacheWords,kMathBase,kMaxCacheOps,kMathWords,kMaxMathOps,kDagBase] at hc hm ⊢
  omega

theorem Drawn.words (h : Drawn params seq params.steps.toNat b)
    (hl : Loaded params.regs seq (params.draws params.steps.toNat) b.out kDagLoads c) :
    (∀ i < params.cacheOps.toNat,
      (c.out.read (kCacheBase + i * kCacheWords)).toNat < params.regs.toNat ∧
        c.out.read (kCacheBase + i * kCacheWords + 1) =
          seq.read (params.draws i % params.regs.toNat)) ∧
      ∀ i < params.mathOps.toNat,
        ((c.out.read (kMathBase + i * kMathWords)).toNat < params.regs.toNat ∧
          (c.out.read (kMathBase + i * kMathWords + 1)).toNat < params.regs.toNat ∧
          c.out.read (kMathBase + i * kMathWords) ≠ c.out.read (kMathBase + i * kMathWords + 1)) ∧
        c.out.read (kMathBase + i * kMathWords + 3) = seq.read
          ((params.draws i + if i < params.cacheOps.toNat then 1 else 0) % params.regs.toNat) := by
  have hsteps := params.steps_toNat
  refine ⟨fun i hi => ?_,fun i hi => ?_⟩
  · rw [hl.frame (kCacheBase + i * kCacheWords) ((before_loads params (k := 0)).1 hi (by omega)),
      hl.frame _ ((before_loads params).1 hi (by omega))]
    exact h.cache i (by omega) hi
  · rw [hl.frame (kMathBase + i * kMathWords) ((before_loads params (k := 0)).2 hi (by omega)),
      hl.frame _ ((before_loads params).2 hi (by omega)),
      hl.frame _ ((before_loads params).2 hi (by omega))]
    exact h.math i (by omega) hi

theorem drawnInPass_eq (h : Drawn params seq params.steps.toNat b)
    (hl : Loaded params.regs seq (params.draws params.steps.toNat) b.out kDagLoads c) (i : Nat) :
    (List.range (params.draws i)).map (fun t => seq.read (t % params.regs.toNat)) ++
        drawnInPass params c.out i =
      (List.range (params.draws (i + 1))).map fun t => seq.read (t % params.regs.toNat) := by
  obtain ⟨hcache,hmath⟩ := h.words hl
  rw [params.draws_succ,drawnInPass]
  by_cases hc : i < params.cacheOps.toNat
  · by_cases hm : i < params.mathOps.toNat
    · have hdst := (hmath i hm).2
      rw [if_pos hc] at hdst
      rw [if_pos hc,if_pos hm,if_pos hc,if_pos hm,(hcache i hc).2,hdst,List.range_succ,
        List.range_succ,List.map_append,List.map_append,List.append_assoc]
      rfl
    · rw [if_pos hc,if_neg hm,if_pos hc,if_neg hm,(hcache i hc).2,List.range_succ,List.map_append]
      rfl
  · by_cases hm : i < params.mathOps.toNat
    · have hdst := (hmath i hm).2
      rw [if_neg hc] at hdst
      rw [if_neg hc,if_pos hm,if_neg hc,if_pos hm,hdst,List.range_succ,List.map_append]
      rfl
    · rw [if_neg hc,if_neg hm,if_neg hc,if_neg hm]
      exact List.append_nil _

theorem destinations_eq (h : Drawn params seq params.steps.toNat b)
    (hl : Loaded params.regs seq (params.draws params.steps.toNat) b.out kDagLoads c) :
    destinations params c.out =
      (List.range (params.draws params.steps.toNat + (kDagLoads - 1))).map fun t =>
        seq.read (t % params.regs.toNat) := by
  have hloop (i : Nat) : (List.range i).flatMap (drawnInPass params c.out) =
      (List.range (params.draws i)).map fun t => seq.read (t % params.regs.toNat) := by
    induction i with
    | zero =>
      rw [Params.draws,Nat.zero_min,Nat.zero_min]
      rfl
    | succ i ih =>
      rw [List.range_succ,List.flatMap_append,ih,List.flatMap_singleton,drawnInPass_eq h hl]
  rw [destinations,hloop,List.range_add,List.map_append,List.map_map]
  congr 1
  refine List.map_congr_left fun i hi => ?_
  have hi := List.mem_range.mp hi
  rw [hl.dst (i + 1) (by omega),if_neg (by omega)]
  rfl

theorem window_perm (hs : Shuffled params.regs.toNat seq) (total s : Nat)
    (hfit : s + params.regs.toNat ≤ total) :
    ((((List.range total).map fun t => seq.read (t % params.regs.toNat)).drop s).take
      params.regs.toNat).Perm ((List.range params.regs.toNat).map (BitVec.ofNat 32)) := by
  have hsplit : List.range total = List.range (s + params.regs.toNat + (total - s - params.regs.toNat)) :=
    congrArg List.range (by omega)
  rw [hsplit,List.range_add,List.range_add,List.map_append,List.map_append,List.append_assoc,
    List.drop_left' (by simp),List.take_left' (by simp),List.map_map]
  exact hs.window s

end Generated

/-- Whatever the parameters and whatever the period, the program is well formed. -/
theorem build_program_wellFormed (params : Params) (period : BitVec 64) (hr : 2 ≤ params.regs.toNat) :
    WellFormed params (buildProgram params period) := by
  obtain ⟨seq,b,hseq,hdrawn,hloaded,hbuilt⟩ := generated params period hr
  rw [hbuilt]
  obtain ⟨hcache,hmath⟩ := hdrawn.words hloaded
  have hlt (t : Nat) : (seq.read (t % params.regs.toNat)).toNat < params.regs.toNat :=
    hseq.lt _ (Nat.mod_lt _ (by omega))
  refine ⟨fun p hp => ?_,fun i hi => (hmath i hi).1.2.2,fun s hs => ?_,?_,fun p hp => ?_⟩
  · cases hp with
    | cacheSrc i hi => exact (hcache i hi).1
    | cacheDst i hi =>
      rw [(hcache i hi).2]
      exact hlt _
    | mathSrc₁ i hi => exact (hmath i hi).1.1
    | mathSrc₂ i hi => exact (hmath i hi).1.2.1
    | mathDst i hi =>
      rw [(hmath i hi).2]
      exact hlt _
    | dagDst i hi =>
      rw [hloaded.dst i hi]
      split
      · exact Nat.lt_of_lt_of_le Nat.zero_lt_two hr
      · exact hlt _
  · rw [destinations_eq hdrawn hloaded] at hs ⊢
    rw [List.length_map,List.length_range] at hs
    exact window_perm hseq _ s hs
  · exact hloaded.dst 0 (by decide)
  · have hsteps := params.steps_toNat
    by_cases hin : p < kDagBase
    · rw [hloaded.frame p hin]
      refine hdrawn.blank p (fun hlow => hp (.inl ?_)) fun hmid => hp (.inr (.inl ?_))
      · rw [Nat.min_eq_right (by omega)] at hlow
        exact ⟨Nat.zero_le _,hlow⟩
      · rwa [Nat.min_eq_right (by omega)] at hmid
    · have hend : kProgramWords ≤ p := Nat.not_lt.mp fun hlt => hp (.inr (.inr ⟨Nat.not_lt.mp hin,hlt⟩))
      rw [Words.read,Vector.getElem?_eq_none hend]
      rfl

theorem build_program_wellFormed_kawpow :
    ∃ params : Params,2 ≤ params.regs.toNat ∧ WellFormed params (buildProgram params 1) :=
  let params : Params := ⟨32,11,18,64,Words.zeros _,Words.zeros _,by decide,by decide,by decide,
    by decide⟩
  ⟨params,by decide,build_program_wellFormed params 1 (by decide)⟩

end VkMiner.Progpow
