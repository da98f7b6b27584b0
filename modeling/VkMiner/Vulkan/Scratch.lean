import VkMiner.Lib.Runs
import VkMiner.Vulkan.Coverage
set_option autoImplicit false

/-! The scratchpads of a kernel: what its ring is given, how large its dispatches become, and where
its invocations write. -/

namespace VkMiner.Vulkan.Scratch
open Coverage Runs

def kMinBatch : Nat := 4096

def slotScratch (spec : KernelSpec) (fit : KernelFit) : Nat :=
  fit.maxBatch*spec.scratchBytes%wide

def deviceScratch (spec : KernelSpec) (fit : KernelFit) (shared : Nat) : Nat :=
  orElse spec.concurrentKernels 1*(fit.depth*slotScratch spec fit)+shared

def clampBatch (info : DeviceInfo) (fit : KernelFit) (batch : Nat) : Nat :=
  let least := Nat.max (kMinBatch/fit.lanes*fit.nonces%narrow) fit.perGroup
  let batch := Nat.min (Nat.min (Nat.max batch least) kMaxBatch) fit.maxBatch
  if info.maxWorkgroupCount ≠ 0 then Nat.min batch (info.maxWorkgroupCount*fit.perGroup) else batch

/-- What a kernel knows of its dispatches: how many nonces the next one has, and how many
measurements it sits out. -/
structure Sizing where
  batch : Nat
  hold : Nat

def firstSizing (info : DeviceInfo) (fit : KernelFit) : Sizing :=
  ⟨clampBatch info fit (if info.kind = .cpu then 0 else 1048576/fit.lanes),0⟩

/-- What `collect` learns of a dispatch: that it took no time that could be measured, that its time
asks for `next` nonces, or that it was too slow. -/
inductive Measured where
  | nothing
  | next (nonces : Nat)
  | slow (count : Nat)

def resize (info : DeviceInfo) (fit : KernelFit) (s : Sizing) : Measured → Sizing
  | .nothing => s
  | .next nonces =>
    if s.hold ≠ 0 then { s with hold := s.hold-1 }
    else
      let batch := clampBatch info fit (Nat.min nonces kMaxBatch)
      ⟨batch,if batch = s.batch then s.hold else fit.depth⟩
  | .slow count =>
    if count = s.batch then ⟨clampBatch info fit (s.batch/4),fit.depth⟩ else s

def step (info : DeviceInfo) (fit : KernelFit) (s : Sizing) (m : Measured) : Option Sizing :=
  some (resize info fit s m)

def scratchWord (spec : KernelSpec) (index w : Nat) : Nat := index*(spec.scratchBytes/4)%narrow+w

/-- The invocations of a dispatch, the padding of its last workgroup with them. -/
def invocations (fit : KernelFit) (count : Nat) : Nat := groupsOf fit count*fit.localSizeX

/-- No invocation of a dispatch that is accepted is outside the scratchpad of its slot. -/
def Inside (spec : KernelSpec) (fit : KernelFit) : Prop :=
  ∀ count index w,count ≤ fit.maxBatch → index < invocations fit count → w < spec.scratchBytes/4 →
    scratchWord spec index w*4+4 ≤ slotScratch spec fit

def Sized (info : DeviceInfo) (fit : KernelFit) : Prop :=
  ∀ s,Reach (step info fit) free (firstSizing info fit) s → 1 ≤ s.batch ∧ s.batch ≤ fit.maxBatch

/-- A kernel for which every limit was kept in the same way. -/
structure Bounded (info : DeviceInfo) (spec : KernelSpec) (shared : Nat) (fit : KernelFit) :
    Prop where
  whole : 0 < fit.maxBatch ∧ fit.perGroup ∣ fit.maxBatch
  budget : deviceScratch spec fit shared ≤ vulkanScratchBudget info
  range : info.maxBindingRange ≠ 0 → slotScratch spec fit ≤ info.maxBindingRange
  sized : Sized info fit
  inside : Inside spec fit

/-- A kernel as it is fitted: one without scratch takes the largest batch there is. -/
structure Fitted (info : DeviceInfo) (spec : KernelSpec) (shared : Nat) (fit : KernelFit) :
    Prop where
  positive : 0 < fit.maxBatch ∧ fit.maxBatch ≤ kMaxBatch
  scratchless : spec.scratchBytes = 0 → fit.maxBatch = kMaxBatch
  whole : spec.scratchBytes ≠ 0 → fit.perGroup ∣ fit.maxBatch
  budget : spec.scratchBytes ≠ 0 → spec.scratchBytes*fit.depth*fit.lanes < wide →
    deviceScratch spec fit shared ≤ vulkanScratchBudget info
  sized : Sized info fit
  inside : fit.lanes = 1 → fit.localSizeX*fit.nonces < narrow →
    spec.scratchBytes*fit.depth*fit.lanes < wide → Inside spec fit

variable {t : Tuning} {info : DeviceInfo} {spec : KernelSpec} {shared : Nat} {fit : KernelFit}

theorem fit_scratch (h : vulkanKernelFit t info spec shared = .ok fit) :
    0 < fit.perGroup ∧ 0 < fit.depth ∧
    (spec.scratchBytes = 0 ∧ fit.maxBatch = kMaxBatch ∨
      spec.scratchBytes ≠ 0 ∧ shared < vulkanScratchBudget info ∧
        fit.perNonce = spec.scratchBytes*fit.depth*fit.lanes%wide ∧
        fit.perGroup ≤ scratchFits info spec shared fit.perNonce ∧
        fit.maxBatch =
          scratchFits info spec shared fit.perNonce/fit.perGroup*fit.perGroup) := by
  have hd : 0 < orElse spec.queueDepth (orElse t.queueDepth kDefaultDepth) :=
    orElse_pos _ (orElse_pos _ (by decide))
  simp only [vulkanKernelFit] at h
  cases hg : workgroup t info spec with
  | error r =>
    rw [hg] at h
    cases h
  | ok g =>
    obtain ⟨width,lanes,nonces⟩ := g
    have hp : 0 < orElse (width/lanes*nonces%narrow) 1 := orElse_pos _ Nat.one_pos
    rw [hg] at h
    simp only [bind,Except.bind,pure,Except.pure,throw,throwThe,MonadExceptOf.throw] at h
    split at h
    · next h0 =>
      cases h
      exact ⟨hp,hd,.inl ⟨h0,rfl⟩⟩
    · next h0 =>
      split at h
      · cases h
      split at h
      · cases h
      · next hroom =>
        split at h
        · cases h
        · next hfits =>
          cases h
          exact ⟨hp,hd,.inr ⟨h0,Nat.not_le.mp hroom,rfl,Nat.not_lt.mp hfits,rfl⟩⟩

theorem clampBatch_range (hp : 0 < fit.perGroup) (hm : 0 < fit.maxBatch) (batch : Nat) :
    1 ≤ clampBatch info fit batch ∧ clampBatch info fit batch ≤ fit.maxBatch := by
  have hleast : fit.perGroup ≤ Nat.max (kMinBatch/fit.lanes*fit.nonces%narrow) fit.perGroup :=
    Nat.le_max_right _ _
  have hbatch : 1 ≤ Nat.min (Nat.min (Nat.max batch
      (Nat.max (kMinBatch/fit.lanes*fit.nonces%narrow) fit.perGroup)) kMaxBatch) fit.maxBatch :=
    Nat.le_min.mpr ⟨Nat.le_min.mpr ⟨(hp.trans_le hleast).trans_le (Nat.le_max_right _ _),by decide⟩,hm⟩
  have hle : Nat.min (Nat.min (Nat.max batch
      (Nat.max (kMinBatch/fit.lanes*fit.nonces%narrow) fit.perGroup)) kMaxBatch) fit.maxBatch ≤
      fit.maxBatch := Nat.min_le_right _ _
  simp only [clampBatch]
  split
  · next hc => exact ⟨Nat.le_min.mpr ⟨hbatch,Nat.mul_pos (Nat.pos_of_ne_zero hc) hp⟩,
      (Nat.min_le_left _ _).trans hle⟩
  · exact ⟨hbatch,hle⟩

theorem resize_range (hp : 0 < fit.perGroup) (hm : 0 < fit.maxBatch) {s : Sizing}
    (h : 1 ≤ s.batch ∧ s.batch ≤ fit.maxBatch) (m : Measured) :
    1 ≤ (resize info fit s m).batch ∧ (resize info fit s m).batch ≤ fit.maxBatch := by
  cases m with
  | nothing => exact h
  | next nonces =>
    simp only [resize]
    split
    · exact h
    · exact clampBatch_range hp hm _
  | slow count =>
    simp only [resize]
    split
    · exact clampBatch_range hp hm _
    · exact h

theorem sized (hp : 0 < fit.perGroup) (hm : 0 < fit.maxBatch) : Sized info fit := by
  intro s hs
  refine Reach.invariant (I := fun s => 1 ≤ s.batch ∧ s.batch ≤ fit.maxBatch)
    (clampBatch_range hp hm _) ?_ hs
  intro s m s' h _ hstep
  cases hstep
  exact resize_range hp hm h m

theorem scratchFits_budget {perNonce batch : Nat} (hs : shared < vulkanScratchBudget info)
    (hb : batch ≤ scratchFits info spec shared perNonce) :
    orElse spec.concurrentKernels 1*(batch*perNonce)+shared ≤ vulkanScratchBudget info := by
  have hle : batch*perNonce ≤
      (vulkanScratchBudget info-shared)/orElse spec.concurrentKernels 1 := by
    by_cases h0 : perNonce = 0
    · rw [h0]
      exact Nat.zero_le _
    · have hb' : batch ≤ (vulkanScratchBudget info-shared)/orElse spec.concurrentKernels 1/perNonce := by
        have ho : orElse perNonce 1 = perNonce := if_neg h0
        rw [scratchFits,ho] at hb
        exact hb.trans (Nat.min_le_left _ _)
      exact (Nat.mul_le_mul_right _ hb').trans (Nat.div_mul_le_self _ _)
  have hc := (Nat.mul_le_mul_left (orElse spec.concurrentKernels 1) hle).trans (Nat.mul_div_le _ _)
  omega

theorem rounded_invocations {width nonces group batch count : Nat} (hg : group = width*nonces)
    (hn : 0 < nonces) (hp : 0 < group) (hd : group ∣ batch) (hc : count ≤ batch) :
    (count+group-1)/group*width ≤ batch := by
  obtain ⟨k,rfl⟩ := hd
  have hw : width ≤ group := hg ▸ Nat.le_mul_of_pos_right width hn
  have hk : (count+group-1)/group ≤ k := by
    rw [Nat.mul_comm] at hc
    rw [Nat.div_le_iff_le_mul hp]
    omega
  rw [Nat.mul_comm group k]
  exact Nat.mul_le_mul hk hw

theorem ring_budget (h : vulkanKernelFit t info spec shared = .ok fit) (h0 : spec.scratchBytes ≠ 0)
    (hl : 0 < fit.lanes) (hw : spec.scratchBytes*fit.depth*fit.lanes < wide) :
    fit.maxBatch*spec.scratchBytes*fit.depth ≤ fit.maxBatch*fit.perNonce ∧
      orElse spec.concurrentKernels 1*(fit.maxBatch*fit.perNonce)+shared ≤
        vulkanScratchBudget info := by
  obtain ⟨-,-,⟨hz,-⟩ | ⟨-,hs,hper,-,hb⟩⟩ := fit_scratch h
  · exact absurd hz h0
  · have hle : fit.maxBatch ≤ scratchFits info spec shared fit.perNonce := by
      rw [hb]
      exact Nat.div_mul_le_self _ _
    refine ⟨?_,scratchFits_budget hs hle⟩
    rw [hper,Nat.mod_eq_of_lt hw,Nat.mul_assoc]
    exact Nat.mul_le_mul_left _ (Nat.le_mul_of_pos_right _ hl)

theorem device_budget (h : vulkanKernelFit t info spec shared = .ok fit)
    (h0 : spec.scratchBytes ≠ 0) (hl : 0 < fit.lanes)
    (hw : spec.scratchBytes*fit.depth*fit.lanes < wide) :
    deviceScratch spec fit shared ≤ vulkanScratchBudget info := by
  obtain ⟨hring,hb⟩ := ring_budget h h0 hl hw
  have hslot : fit.depth*slotScratch spec fit ≤ fit.maxBatch*fit.perNonce := by
    rw [Nat.mul_comm fit.depth]
    exact (Nat.mul_le_mul_right _ (Nat.mod_le _ _)).trans hring
  have hk := Nat.mul_le_mul_left (orElse spec.concurrentKernels 1) hslot
  rw [deviceScratch]
  omega

theorem scratchBudget_lt (info : DeviceInfo) : vulkanScratchBudget info < wide := by
  rw [vulkanScratchBudget]
  split
  · exact Nat.lt_of_le_of_lt (Nat.min_le_right _ _) (by decide)
  · exact Nat.lt_of_le_of_lt (Nat.min_le_right _ _) (by decide)
  · exact Nat.lt_of_le_of_lt (Nat.min_le_right _ _) (by decide)

theorem slotScratch_eq (h : vulkanKernelFit t info spec shared = .ok fit)
    (h0 : spec.scratchBytes ≠ 0) (hl : 0 < fit.lanes)
    (hw : spec.scratchBytes*fit.depth*fit.lanes < wide) :
    slotScratch spec fit = fit.maxBatch*spec.scratchBytes := by
  obtain ⟨-,hd,-⟩ := fit_scratch h
  obtain ⟨hring,hb⟩ := ring_budget h h0 hl hw
  have hone : 0 < orElse spec.concurrentKernels 1 := orElse_pos _ Nat.one_pos
  have h₁ := Nat.le_mul_of_pos_right (fit.maxBatch*spec.scratchBytes) hd
  have h₂ := Nat.le_mul_of_pos_left (fit.maxBatch*fit.perNonce) hone
  have hlt := scratchBudget_lt info
  exact Nat.mod_eq_of_lt (by omega)

theorem word_inside {index batch bytes w : Nat} (hi : index < batch) (hw : w < bytes/4) :
    (index*(bytes/4)%narrow+w)*4+4 ≤ batch*bytes := by
  have hm := Nat.mod_le (index*(bytes/4)) narrow
  have hs : (index+1)*(bytes/4) = index*(bytes/4)+bytes/4 := Nat.succ_mul _ _
  have hb : (index+1)*(bytes/4)*4 ≤ batch*bytes := by
    rw [Nat.mul_assoc]
    exact Nat.mul_le_mul hi (Nat.div_mul_le_self _ _)
  omega

theorem inside (h : vulkanKernelFit t info spec shared = .ok fit) (hl : fit.lanes = 1)
    (hn : fit.localSizeX*fit.nonces < narrow)
    (hw : spec.scratchBytes*fit.depth*fit.lanes < wide) : Inside spec fit := by
  intro count index w hc hi hlt
  have h0 : spec.scratchBytes ≠ 0 := by
    rintro h0
    rw [h0] at hlt
    exact absurd hlt (Nat.not_lt_zero w)
  obtain ⟨hgroup,hper,hmost⟩ := fit_cases h
  obtain ⟨hp,-,⟨hz,-⟩ | ⟨-,-,-,hfits,hb⟩⟩ := fit_scratch h
  · exact absurd hz h0
  have hnonces : 0 < fit.nonces := (workgroup_whole hgroup).2.2.2.1
  have hpos : 0 < fit.localSizeX := (workgroup_whole hgroup).2.1
  rw [hl,Nat.div_one,Nat.mod_eq_of_lt hn,orElse,
    if_neg (Nat.mul_pos hpos hnonces).ne'] at hper
  have hdvd : fit.perGroup ∣ fit.maxBatch := hb ▸ Nat.dvd_mul_left _ _
  have hkm : kMaxBatch = 268435456 := rfl
  have hnar : narrow = 4294967296 := rfl
  have hgle : fit.perGroup ≤ kMaxBatch := hfits.trans (Nat.min_le_right _ _)
  have hgroups : groupsOf fit count = (count+fit.perGroup-1)/fit.perGroup := by
    rw [groupsOf,Nat.mod_eq_of_lt (by omega)]
  rw [invocations,hgroups] at hi
  have hin := hi.trans_le (rounded_invocations hper hnonces hp hdvd hc)
  rw [slotScratch_eq h h0 (by omega) hw]
  exact word_inside hin hlt

/-- What holds of every kernel that fits. -/
theorem fit_fitted (h : vulkanKernelFit t info spec shared = .ok fit) :
    Fitted info spec shared fit := by
  obtain ⟨hgroup,-,hmost⟩ := fit_cases h
  obtain ⟨hp,-,hcases⟩ := fit_scratch h
  have hlanes : 0 < fit.lanes :=
    Nat.pos_of_dvd_of_pos (workgroup_whole hgroup).2.2.1 (workgroup_whole hgroup).2.1
  have hpos : 0 < fit.maxBatch := by
    obtain ⟨-,hb⟩ | ⟨-,-,-,hfits,hb⟩ := hcases
    · rw [hb]
      decide
    · rw [hb]
      exact Nat.mul_pos (Nat.div_pos hfits hp) hp
  constructor
  · exact ⟨hpos,hmost⟩
  · intro h0
    obtain ⟨-,hb⟩ | ⟨hn,-⟩ := hcases
    · exact hb
    · exact absurd h0 hn
  · intro h0
    obtain ⟨hz,-⟩ | ⟨-,-,-,-,hb⟩ := hcases
    · exact absurd hz h0
    · exact hb ▸ Nat.dvd_mul_left _ _
  · exact fun h0 => device_budget h h0 hlanes
  · exact sized hp hpos
  · exact inside h

def bigCard : DeviceInfo := ⟨25769803776,.discreteGpu,32,1024,1024,65535,4294967292,4294967295⟩

def scrypt : KernelSpec := ⟨true,false,2,120,0,0,0,false,131072,0,0,0,0,0,0,0,1⟩

theorem scrypt_fit : vulkanKernelFit ⟨0,0,0⟩ bigCard scrypt 0 =
    .ok ⟨256,1,1,256,3,49152,393216⟩ := by decide +kernel

theorem scrypt_fitted : Fitted bigCard scrypt 0 ⟨256,1,1,256,3,49152,393216⟩ :=
  fit_fitted scrypt_fit

/-- A kernel without scratch, with workgroups of 96. -/
theorem not_always_bounded : ¬∀ t info spec shared fit,
    vulkanKernelFit t info spec shared = .ok fit → Bounded info spec shared fit := by
  intro h
  have hf : vulkanKernelFit ⟨0,96,0⟩ bigCard { scrypt with scratchBytes := 0 } 0 =
      .ok ⟨96,1,1,96,3,kMaxBatch,0⟩ := by decide +kernel
  have hd := (h _ _ _ _ _ hf).whole.2
  revert hd
  decide

end VkMiner.Vulkan.Scratch
