import Mathlib.Tactic.IntervalCases
import VkMiner.Progpow.Kernel
set_option autoImplicit false

/-! The sixteen invocations of a hash, next to the host's sixteen lanes. -/

namespace VkMiner.Progpow
open Loops

structure Constants.Carries (c : Constants) (params : Params) : Prop where
  regs : c.kRegs = params.regs
  cacheOps : c.kCacheOps = params.cacheOps
  mathOps : c.kMathOps = params.mathOps
  rounds : c.kRounds = params.rounds
  sealSeed : ∀ i < kSealSeedWords, c.kSealSeed i = params.sealSeed.read i
  sealFinal : ∀ i < kSealFinalWords, c.kSealFinal i = params.sealFinal.read i

structure Push.Starts (push : Push) (header : Words 8) (start : BitVec 64) : Prop where
  header : push.header = header
  lo : push.nonceLo = start.setWidth 32
  hi : push.nonceHi = (start >>> 32).setWidth 32

variable {g : Workgroup} {α : Type} {c : Constants} {params : Params} {program : Program}
  {l1 : Nat → Word} {lines : Nat} {lineAt : Nat → Line} {push : Push} {header : Words 8}
  {start : BitVec 64} {body : Nat → Nat → Word → Regs → Regs} {index : Nat}

theorem toList_getD {n : Nat} (v : Words n) (i : Nat) : v.toList.getD i 0 = v.read i := by
  simp [Words.read,List.getD_eq_getElem?_getD]

theorem sealSeed_at {i : Nat} (h : i < kSealSeedWords) (pre post : Word) :
    (kernelConstants params pre post).getD (4 + i) 0 = params.sealSeed.read i := by
  rw [← toList_getD,Nat.add_comm]
  simp [kernelConstants,List.getD_eq_getElem?_getD,List.getElem?_append,h]

theorem sealFinal_at {i : Nat} (h : i < kSealFinalWords) (pre post : Word) :
    (kernelConstants params pre post).getD (19 + i) 0 = params.sealFinal.read i := by
  have hs : ¬15 + i < kSealSeedWords := by simp [kSealSeedWords]
  have hi : 15 + i - kSealSeedWords = i := by simp [kSealSeedWords]
  rw [← toList_getD,show 19 + i = 15 + i + 4 from by omega]
  simp [kernelConstants,List.getD_eq_getElem?_getD,List.getElem?_append,hs,hi,h]

theorem specialized_kernel (program kernel : List Word) (i : Nat) :
    specialized program kernel (kKernelConstantId + i) = kernel.getD i 0 := by
  rw [specialized,if_pos (Nat.le_add_right _ _),Nat.add_sub_cancel_left]

theorem specialized_carries (params : Params) (program : List Word) (l1 pre : Word) :
    Constants.Carries (specialized program (kernelConstants params l1 pre)) params where
  regs := specialized_kernel _ _ 0
  cacheOps := specialized_kernel _ _ 1
  mathOps := specialized_kernel _ _ 2
  rounds := specialized_kernel _ _ 3
  sealSeed i h := by
    rw [Constants.kSealSeed,show 268 + i = kKernelConstantId + (4 + i) from by
      simp only [kKernelConstantId,kProgramConstantId,kMaxProgramConstants]; omega,
      specialized_kernel,sealSeed_at h]
  sealFinal i h := by
    rw [Constants.kSealFinal,show 283 + i = kKernelConstantId + (19 + i) from by
      simp only [kKernelConstantId,kProgramConstantId,kMaxProgramConstants]; omega,
      specialized_kernel,sealFinal_at h]

theorem specialized_device (params : Params) (program : List Word) (l1 pre : Word) :
    (specialized program (kernelConstants params l1 pre)).kL1SharedWords = l1 ∧
      (specialized program (kernelConstants params l1 pre)).kSeedPrePass = pre := by
  have hs : params.sealSeed.toList.length = 15 := Vector.length_toList
  have hf : params.sealFinal.toList.length = 9 := Vector.length_toList
  constructor
  · refine (specialized_kernel _ _ 28).trans ?_
    simp [kernelConstants,List.getD_eq_getElem?_getD,hs,hf]
  · refine (specialized_kernel _ _ 29).trans ?_
    simp [kernelConstants,List.getD_eq_getElem?_getD,hs,hf]

theorem Constants.Carries.shape_eq (hc : c.Carries params) : c.shape = params.shape := by
  rw [Constants.shape,Params.shape,hc.regs,hc.cacheOps,hc.mathOps]

theorem lo_eq (h : push.Starts header start) :
    push.lo index = (start + BitVec.ofNat 64 index).setWidth 32 := by
  rw [Push.lo,h.lo]
  bv_omega

theorem hi_eq (h : push.Starts header start) (hi : index < 2 ^ 32) :
    push.hi index = ((start + BitVec.ofNat 64 index) >>> 32).setWidth 32 := by
  rw [Push.hi,Push.lo,h.lo,h.hi]
  have hs := start.isLt
  refine BitVec.eq_of_toNat_eq ?_
  simp only [BitVec.lt_def,BitVec.toNat_add,BitVec.toNat_setWidth,BitVec.toNat_ofNat,
    BitVec.toNat_ushiftRight,Nat.shiftRight_eq_div_pow]
  split
  case isTrue h =>
    change (start.toNat / 2 ^ 32 % 2 ^ 32 + 1) % 2 ^ 32 = _
    omega
  case isFalse h =>
    change (start.toNat / 2 ^ 32 % 2 ^ 32 + 0) % 2 ^ 32 = _
    omega

/-- Every lane computes its hash's first keccak as the host does. -/
theorem sealOf_eq (hc : c.Carries params) (hp : push.Starts header start) (hi : index < 2 ^ 32) :
    sealOf c push index =
      keccakF800 (absorb params header (start + BitVec.ofNat 64 index)) := by
  rw [sealOf,absorb,keccakF800_eq,hp.header,lo_eq hp,hi_eq hp hi]
  refine congrArg keccakF800 (upTo_congr _ fun i h seed => ?_)
  rw [hc.sealSeed i h]

theorem seedLane_eq (hc : c.Carries params) (seed : Nat → Word) (l : Fin kLanes) :
    seedLane c seed l = (initMix params (seed 0) (seed 1)).get l := by
  simp only [seedLane,initMix,vector_get,Vector.getElem_ofFn,hc.regs]

def column (e : Exchange g) (i : Fin g.width) (v : Vector α g.width) : Vector α kLanes :=
  Vector.ofFn fun l => v.get (e.member i l)

theorem column_getElem (e : Exchange g) (i : Fin g.width) (v : Vector α g.width) {l : Nat}
    (hl : l < kLanes) : (column e i v)[l] = v[e.member i ⟨l,hl⟩] := by
  simp [column,vector_get]

/-- One round: the word that all of them read is the one that the host takes from lane
`r % kLanes`. -/
theorem lockstep_step (e : Exchange g) (i : Fin g.width)
    (hb : ∀ r l word regs, l < kLanes → body r l word regs =
      roundLane params program l1 r l (lineAt (word.toNat % lines)) regs)
    (r : Nat) (s : Vector Regs g.width × Words g.width) :
    column e i (Vector.ofFn fun j => body r (e.lane j)
      ((e.broadcast s.2 (s.1.map fun regs => regs.read 0) (r % kLanes)).1.get j) (s.1.get j)) =
    runRound params program r (lineAt (((Mix.reader (column e i s.1) r).read 0).toNat % lines))
      l1 (column e i s.1) := by
  refine Vector.ext fun l hl => ?_
  have hr : r % kLanes < kLanes := Nat.mod_lt _ (by decide)
  have hread := e.broadcast_eq (e.member i ⟨l,hl⟩) ⟨r % kLanes,hr⟩ s.2
    (s.1.map fun regs => regs.read 0)
  rw [runRound_getElem _ _ _ _ _ _ hl,column_getElem _ _ _ hl,column_getElem _ _ _ hl,
    show Mix.reader (column e i s.1) r = _ from column_getElem e i s.1 hr]
  simp only [Fin.getElem_fin,Vector.getElem_ofFn,vector_get,e.member_member,
    Vector.getElem_map] at hread ⊢
  rw [e.lane_member,hb _ _ _ _ hl,hread]

/-- The rounds of a workgroup are the host's rounds, hash by hash. -/
theorem lockstep_column (e : Exchange g) (i : Fin g.width)
    (hb : ∀ r l word regs, l < kLanes → body r l word regs =
      roundLane params program l1 r l (lineAt (word.toNat % lines)) regs)
    (mix : Vector Regs g.width) :
    column e i (lockstep e params.rounds.toNat body mix).1 =
      mixAfter params program l1 lines lineAt (column e i mix) :=
  upTo_hom (fun s : Vector Regs g.width × Words g.width => column e i s.1) _ fun r _ s =>
    lockstep_step e i hb r s

theorem foldLanes_eq (e : Exchange g) (laneHash : Words g.width) (i : Fin g.width) :
    foldLanes e laneHash i = mixHash (column e i laneHash) := by
  unfold foldLanes mixHash
  refine upTo_congr _ fun l hl out => ?_
  have hp : (e.published (e.publish laneHash) l).get i = laneHash[e.member i ⟨l,hl⟩] :=
    e.published_eq i ⟨l,hl⟩ laneHash
  rw [Words.read_of_lt _ hl,column_getElem _ _ _ hl,hp]

theorem be32dec_or (b₀ b₁ b₂ b₃ : BitVec 8) :
    be32dec (b₀,b₁,b₂,b₃) = b₃.setWidth 32 ||| (b₂.setWidth 32 <<< 8) |||
      (b₁.setWidth 32 <<< 16) ||| (b₀.setWidth 32 <<< 24) := by
  rw [be32dec,BitVec.add_eq_or_of_and_eq_zero _ (b₂.setWidth 32 <<< 8),
    BitVec.add_eq_or_of_and_eq_zero _ (b₁.setWidth 32 <<< 16),
    BitVec.add_eq_or_of_and_eq_zero _ (b₀.setWidth 32 <<< 24)]
  all_goals
    refine BitVec.eq_of_getLsbD_eq fun i hi => ?_
    interval_cases i <;> simp

theorem bswap32_eq (x : Word) : Glsl.bswap32 x = be32dec (le32enc x) := by
  refine BitVec.eq_of_getLsbD_eq fun i hi => ?_
  simp only [Glsl.bswap32,le32enc,be32dec_or]
  interval_cases i <;> simp

theorem firstWords_read (st : Words 25) {i : Nat} (hi : i < 8) :
    (firstWords st).read i = st.read i := Words.read_fill st.read _ (Nat.le_refl 8) hi

/-- The kernel's words are the host's, in the order that a target is compared in. -/
theorem stateOf_eq (last : Words 25) : stateOf last = targetOrder (firstWords last) :=
  upTo_congr _ fun j hj state => by rw [bswap32_eq,firstWords_read last (by omega)]

def valueBelow (words : Words 8) (k : Nat) : Nat :=
  upTo k 0 fun i n => n + (words.read i).toNat * 2 ^ (32 * i)

theorem valueBelow_lt (words : Words 8) (k : Nat) : valueBelow words k < 2 ^ (32 * k) := by
  induction k with
  | zero => exact Nat.one_pos
  | succ k ih =>
    have hw := Nat.mul_le_mul_right (2 ^ (32 * k)) (Nat.succ_le_of_lt (words.read k).isLt)
    rw [Nat.succ_mul,← Nat.pow_add] at hw
    rw [Nat.mul_succ,Nat.add_comm (32 * k)]
    exact Nat.lt_of_lt_of_le (by rw [valueBelow,upTo]; exact Nat.add_comm _ _ ▸ Nat.add_lt_add_left ih _) hw

theorem withinTarget_iff (state target : Words 8) (k : Nat) :
    withinTarget state target k = true ↔ valueBelow state k ≤ valueBelow target k := by
  induction k with
  | zero => simp [withinTarget,valueBelow,upTo]
  | succ k ih =>
    have hs := valueBelow_lt state k
    have ht := valueBelow_lt target k
    have hstep (words : Words 8) : valueBelow words (k + 1) =
        valueBelow words k + (words.read k).toNat * 2 ^ (32 * k) := rfl
    simp only [withinTarget,hstep,BitVec.lt_def]
    obtain h | h | h := Nat.lt_trichotomy (target.read k).toNat (state.read k).toNat
    · have := Nat.mul_le_mul_right (2 ^ (32 * k)) (Nat.succ_le_of_lt h)
      rw [Nat.succ_mul] at this
      simp only [h,if_true,Bool.false_eq_true,false_iff]
      omega
    · rw [h,if_neg (Nat.lt_irrefl _),if_neg (Nat.lt_irrefl _),ih]
      omega
    · have := Nat.mul_le_mul_right (2 ^ (32 * k)) (Nat.succ_le_of_lt h)
      rw [Nat.succ_mul] at this
      simp only [Nat.lt_asymm h,h,if_true,if_false,true_iff]
      omega

theorem emit_eq (push : Push) (index : Nat) (state : Words 8) :
    emit push index state =
      if index < push.count.toNat ∧ value state ≤ value push.target then
        some ⟨push.lo index,push.hi index,state⟩
      else none := by
  have hw := withinTarget_iff state push.target 8
  change _ ↔ value state ≤ value push.target at hw
  have hscreen (h : push.target.read 7 < state.read 7) : ¬value state ≤ value push.target := by
    rw [← hw,withinTarget,if_pos h]
    simp
  obtain h₁ | h₁ := Nat.lt_or_ge index push.count.toNat
  · rw [emit,if_neg (Nat.not_le.mpr h₁)]
    by_cases h₂ : value state ≤ value push.target
    · rw [if_neg (mt hscreen (not_not.mpr h₂)),if_pos (hw.mpr h₂),if_pos ⟨h₁,h₂⟩]
    · rw [if_neg (mt hw.mp h₂),ite_self,if_neg fun h => h₂ h.2]
  · rw [emit,if_pos h₁,if_neg fun h => Nat.not_lt.mpr h₁ h.1]

theorem nonce_words (n : BitVec 64) (hash : Words 8) :
    Candidate.nonce ⟨n.setWidth 32,(n >>> 32).setWidth 32,hash⟩ = n := by
  refine BitVec.eq_of_getLsbD_eq fun i hi => ?_
  simp only [Candidate.nonce]
  obtain h | h := Nat.lt_or_ge i 32
  · simp [h,hi]
  · have hd : 32 + (i - 32) = i := Nat.add_sub_of_le h
    simp [Nat.not_lt.mpr h,hi,hd]
    omega

theorem lastOf_eq (hc : c.Carries params) {seed : Nat → Word} {st : Words 25}
    (hs : ∀ k < 8, seed k = st.read k) (mixHash : Words 8) :
    lastOf c seed mixHash = keccakF800 (absorbLast params st mixHash) := by
  have hf : (upTo 8 (Words.zeros 25) fun i last => last.write i (seed i)) =
      upTo 8 (Words.zeros 25) fun i last => last.write i (st.read i) :=
    upTo_congr _ fun i hi last => by rw [hs i hi]
  rw [lastOf,absorbLast,keccakF800_eq,hf]
  refine congrArg keccakF800 (upTo_congr _ fun i h last => ?_)
  rw [hc.sealFinal i h]

theorem column_map {β : Type} (e : Exchange g) (i : Fin g.width) (v : Vector α g.width)
    (f : α → β) : column e i (v.map f) = (column e i v).map f := by
  refine Vector.ext fun l hl => ?_
  simp [column,vector_get]

theorem column_seedLane (e : Exchange g) (i : Fin g.width) (hc : c.Carries params)
    {seed : Fin g.width → Nat → Word} {st : Words 25}
    (hs : ∀ l, ∀ k < 8, seed (e.member i l) k = st.read k) :
    column e i (Vector.ofFn fun j => seedLane c (seed j) (e.lane j)) =
      initMix params (st.read 0) (st.read 1) := by
  refine Vector.ext fun l hl => ?_
  rw [column_getElem _ _ _ hl]
  simp only [Fin.getElem_fin,Vector.getElem_ofFn,e.lane_member]
  rw [seedLane_eq hc _ ⟨l,hl⟩,hs _ 0 (by decide),hs _ 1 (by decide)]
  rfl

/-- What invocation `i` has to come to, where the host's hash of its nonce is `h`. -/
structure Matches (e : Exchange g) (push : Push) (nonce : BitVec 64) (h : Hash) (i : Fin g.width)
    (o : Outcome) : Prop where
  mix : o.mixHash = h.mix
  state : e.lane i = 0 → o.state = some (targetOrder h.digest)
  emitted : o.emitted.isSome ↔ e.lane i = 0 ∧ e.nonceIndex i < push.count.toNat ∧
    value (targetOrder h.digest) ≤ value push.target
  candidate : ∀ c ∈ o.emitted, c.nonce = nonce ∧ c.hash = targetOrder h.digest

/-- A kernel whose lanes start from the host's seals and whose rounds are the host's, lane by
lane, computes the host's hash. -/
theorem main_matches (e : Exchange g) (hc : c.Carries params) (hp : push.Starts header start)
    (hb : ∀ r l word regs, l < kLanes → body r l word regs =
      roundLane params program l1 r l (lineAt (word.toNat % lines)) regs)
    {seed : Fin g.width → Nat → Word}
    (hs : ∀ j, ∀ k < 8, seed j k = (sealOf c push (e.nonceIndex j)).read k) (i : Fin g.width) :
    Matches e push (start + BitVec.ofNat 64 (e.nonceIndex i))
      (hashWith params program l1 lines lineAt header
        (start + BitVec.ofNat 64 (e.nonceIndex i))) i (main e c push seed body i) := by
  have hseal := sealOf_eq hc hp (e.nonceIndex_lt i)
  have hlo : push.lo (e.nonceIndex i) = _ := lo_eq hp
  have hhi := hi_eq hp (e.nonceIndex_lt i)
  generalize start + BitVec.ofNat 64 (e.nonceIndex i) = nonce at hseal hlo hhi ⊢
  generalize hh : hashWith params program l1 lines lineAt header nonce = h
  have hm (l : Fin kLanes) (k : Nat) (hk : k < 8) :
      seed (e.member i l) k = (keccakF800 (absorb params header nonce)).read k := by
    rw [hs _ k hk,e.nonceIndex_member,hseal]
  have hi (k : Nat) (hk : k < 8) : seed i k = (keccakF800 (absorb params header nonce)).read k := by
    have := hm ⟨e.lane i,e.lane_lt i⟩ k hk
    rwa [e.member_lane] at this
  have hfold : foldLanes e (((lockstep e c.kRounds.toNat body
      (Vector.ofFn fun j => seedLane c (seed j) (e.lane j))).1).map fun regs =>
        upTo c.kRegs.toNat kFnvOffsetBasis fun i h => fnv1a h (regs.read i)) i = h.mix := by
    rw [foldLanes_eq,column_map,hc.rounds,lockstep_column e i hb,column_seedLane e i hc hm,hc.regs,
      ← hh]
    rfl
  have hstate : stateOf (lastOf c (seed i) h.mix) = targetOrder h.digest := by
    rw [lastOf_eq hc hi,stateOf_eq,← hh]
    rfl
  by_cases hl : e.lane i = 0
  · have hmain : main e c push seed body i = ⟨h.mix,some (targetOrder h.digest),
        emit push (e.nonceIndex i) (targetOrder h.digest)⟩ := by
      simp only [main,hl,ne_eq,not_true,if_false]
      rw [hfold,hstate]
    rw [hmain,emit_eq,hlo,hhi]
    refine ⟨rfl,fun _ => rfl,?_,?_⟩
    · simp [hl]
    · simp only []
      split
      · intro x hx
        obtain rfl := Option.mem_some_iff.mp hx
        exact ⟨nonce_words nonce _,rfl⟩
      · nofun
  · have hmain : main e c push seed body i = ⟨h.mix,none,none⟩ := by
      simp only [main,hl,ne_eq,not_false_eq_true,if_true]
      rw [hfold]
    rw [hmain]
    exact ⟨rfl,fun h => absurd h hl,by simp [hl],nofun⟩

end VkMiner.Progpow
