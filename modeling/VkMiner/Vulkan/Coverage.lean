import Mathlib.Data.List.Nodup
import Mathlib.Data.Nat.ModEq
import VkMiner.Lib.Grid
import VkMiner.Vulkan.WouldFit
set_option autoImplicit false

/-! Which nonces a dispatch hashes: the host rounds the count to workgroups, and every kernel
finds its own nonces from its invocation. -/

namespace VkMiner.Vulkan.Coverage
open List

def kLanes : Nat := 16

/-- How a kernel's `main` goes from its invocation to nonces. -/
inductive Main where
  | single | looped | paired | barrier | subgroup
  deriving DecidableEq

inductive Shader where
  | sha256d | blake2s | heavyhash | scrypt | sha3t
  | bmw512 | lbry | qubit | sha512256d | skein | skein2
  | groestl | myrgr | x11 | x13
  | progpow | progpowSpec | progpowSpecSub
  deriving DecidableEq

def Shader.main : Shader → Main
  | .sha256d | .blake2s | .heavyhash | .scrypt | .sha3t => .single
  | .bmw512 | .lbry | .qubit | .sha512256d | .skein | .skein2 => .looped
  | .groestl | .myrgr | .x11 | .x13 => .paired
  | .progpow | .progpowSpec => .barrier
  | .progpowSpecSub => .subgroup

def Main.takesNonces : Main → Bool
  | .looped | .paired => true
  | .single | .barrier | .subgroup => false

def Main.lanes : Main → Nat
  | .single | .looped | .paired => 1
  | .barrier | .subgroup => kLanes

def Main.nonces : Main → Nat
  | .single | .looped | .paired => narrow
  | .barrier | .subgroup => wide

/-- The spec is one that the algorithm gives for this shader, on a device that it offers it on. -/
structure Shader.Suits (s : Shader) (info : DeviceInfo) (spec : KernelSpec) : Prop where
  takesNonces : spec.takesNonces = s.main.takesNonces
  lanes : orElse spec.lanes 1 = s.main.lanes
  fullSubgroups : spec.fullSubgroups = decide (s.main = .subgroup)
  offered : s.main = .subgroup → kLanes ≤ info.subgroupSize ∧ info.subgroupSize % kLanes = 0

/-- What the invocations of a dispatch share: the constants of their pipeline, the device's
subgroup and `push.count`. -/
structure Launch where
  width : Nat
  nonces : Nat
  subgroupSize : Nat
  count : Nat

def Launch.globalId (l : Launch) (group place : Nat) : Nat := (group * l.width + place) % narrow

/-- The loop over an invocation's nonces, from pass `k` with `left` of them to go. -/
def oneByOne (first count : Nat) : Nat → Nat → List Nat
  | _,0 => []
  | k,left + 1 =>
    let index := (first + k) % narrow
    if count ≤ index then [] else index :: oneByOne first count (k + 1) left

/-- The loop that takes two nonces a pass. A second one that is not this invocation's, or past
the dispatch, is never held to the target. -/
def twoByTwo (first count : Nat) : Nat → Nat → List Nat
  | _,0 => []
  | k,1 =>
    let index := (first + k) % narrow
    if count ≤ index then [] else [index]
  | k,left + 2 =>
    let index := (first + k) % narrow
    if count ≤ index then []
    else if (index + 1) % narrow < count then
      index :: (index + 1) :: twoByTwo first count (k + 2) left
    else index :: twoByTwo first count (k + 2) left

/-- Only the first lane of a hash goes on to the target, and only inside the dispatch. -/
def firstLane (count lane index : Nat) : List Nat :=
  if lane ≠ 0 then [] else if count ≤ index then [] else [index]

/-- The nonces, counted from the dispatch's first, whose hash this invocation holds to the
target. Which of a workgroup's places a subgroup's invocation has is the driver's choice, and
the places are numbered here by subgroup. -/
def Main.search (l : Launch) (group place : Nat) : Main → List Nat
  | .single =>
    let index := l.globalId group place
    if l.count ≤ index then [] else [index]
  | .looped => oneByOne (l.globalId group place * l.nonces % narrow) l.count 0 l.nonces
  | .paired => twoByTwo (l.globalId group place * l.nonces % narrow) l.count 0 l.nonces
  | .barrier => firstLane l.count (place % kLanes) (l.globalId group place / kLanes)
  | .subgroup =>
    let subgroup := (group * (l.width / l.subgroupSize) + place / l.subgroupSize) % narrow
    let invocation := place % l.subgroupSize
    firstLane l.count (invocation % kLanes)
      ((subgroup * (l.subgroupSize / kLanes) + invocation / kLanes) % narrow)

def groupsOf (fit : KernelFit) (count : Nat) : Nat :=
  (count + fit.perGroup - 1) % narrow / fit.perGroup

def launchOf (info : DeviceInfo) (fit : KernelFit) (count : Nat) : Launch :=
  ⟨fit.localSizeX,fit.nonces,info.subgroupSize,count⟩

def searched (m : Main) (l : Launch) (groups : List Nat) : List Nat :=
  groups.flatMap fun group => (range l.width).flatMap fun place => m.search l group place

/-- `VulkanKernel::dispatch` with the nonces its invocations hold to the target. `runs` is the
driver's: which workgroups it runs when it is asked for so many. -/
def dispatch (runs : Nat → List Nat) (s : Shader) (info : DeviceInfo) (fit : KernelFit)
    (start count : Nat) : Option (List Nat) :=
  if fit.maxBatch < count then none
  else some ((searched s.main (launchOf info fit count) (runs (groupsOf fit count))).map
    fun index => (start + index) % s.main.nonces)

/-- A driver runs every workgroup once, of no more than the device's limit. Past it nothing is
promised. -/
def Drives (info : DeviceInfo) (runs : Nat → List Nat) : Prop :=
  ∀ groups, info.maxWorkgroupCount = 0 ∨ groups ≤ info.maxWorkgroupCount →
    (runs groups).Perm (range groups)

/-- Every nonce of the dispatch is searched by one invocation, and no other nonce is. -/
structure Exact (m : Main) (start count : Nat) (nonces : List Nat) : Prop where
  once : ∀ i < count, nonces.count ((start + i) % m.nonces) = 1
  inside : ∀ n ∈ nonces, ∃ i < count, n = (start + i) % m.nonces

/-- The dispatch searches exactly what it was given, on every driver. -/
def Covers (s : Shader) (info : DeviceInfo) (fit : KernelFit) (start count : Nat) : Prop :=
  ∀ runs, Drives info runs →
    ∃ nonces, dispatch runs s info fit start count = some nonces ∧ Exact s.main start count nonces

def rounded (fit : KernelFit) (count : Nat) : Nat := (count + fit.perGroup - 1) / fit.perGroup

/-- The workgroups are within the device's limit and are counted in 32 bits, and no invocation's
index comes round into the dispatch. -/
structure Within (s : Shader) (info : DeviceInfo) (fit : KernelFit) (count : Nat) : Prop where
  limit : info.maxWorkgroupCount = 0 ∨ count ≤ info.maxWorkgroupCount * fit.perGroup
  counted : count + fit.perGroup ≤ narrow
  lanes : s.main = .barrier → rounded fit count * fit.localSizeX ≤ narrow
  firsts : s.main.takesNonces = true → ∀ j < rounded fit count * fit.localSizeX,
    narrow ≤ j * fit.nonces → count ≤ j * fit.nonces % narrow

variable {t : Tuning} {info : DeviceInfo} {spec : KernelSpec} {fit : KernelFit} {s : Shader}
  {m : Main} {l : Launch} {shared start count : Nat}

theorem chooseLocalSize_pos : 0 < chooseLocalSize info := orElse_pos _ Nat.one_pos

theorem wholeSteps_pos {width step : Nat} (h : 0 < step) : 0 < wholeSteps width step :=
  orElse_pos _ h

theorem wholeSteps_dvd (width step : Nat) : step ∣ wholeSteps width step := by
  simp only [wholeSteps,orElse]
  split
  · exact Nat.dvd_refl _
  · exact Nat.dvd_sub_mod width

theorem wholeLanes {width lanes : Nat} (hw : 0 < width) (hl : 0 < lanes) :
    0 < (if 1 < lanes then wholeSteps width lanes else width) ∧
      lanes ∣ (if 1 < lanes then wholeSteps width lanes else width) := by
  split
  · exact ⟨wholeSteps_pos hl,wholeSteps_dvd width lanes⟩
  · obtain rfl : lanes = 1 := by omega
    exact ⟨hw,Nat.one_dvd width⟩

theorem chosenNonces {asked most : Nat} (option : Nat) (hm : 0 < most) (ha : ¬most < asked) :
    0 < orElse asked (if option ≠ 0 then Nat.min option most else 1) ∧
      orElse asked (if option ≠ 0 then Nat.min option most else 1) ≤ most := by
  simp only [orElse,Nat.min_def]
  split_ifs <;> omega

theorem wholeSubgroups {width lanes sub : Nat} {full : Bool} (hw : 0 < width) (hl : lanes ∣ width)
    (hs : full = true → 0 < Nat.lcm lanes sub) :
    0 < (if full = true then wholeSteps width (Nat.lcm lanes sub) else width) ∧
      lanes ∣ (if full = true then wholeSteps width (Nat.lcm lanes sub) else width) ∧
      (full = true → sub ∣ if full = true then wholeSteps width (Nat.lcm lanes sub) else width) := by
  cases full with
  | false => exact ⟨hw,hl,nofun⟩
  | true =>
    have hd := wholeSteps_dvd width (Nat.lcm lanes sub)
    exact ⟨wholeSteps_pos (hs rfl),Nat.dvd_trans (Nat.dvd_lcm_left _ _) hd,
      fun _ => Nat.dvd_trans (Nat.dvd_lcm_right _ _) hd⟩

theorem workgroup_whole {width lanes nonces : Nat}
    (h : workgroup t info spec = .ok (width,lanes,nonces)) :
    lanes = orElse spec.lanes 1 ∧ 0 < width ∧ lanes ∣ width ∧
      0 < nonces ∧ nonces ≤ kMaxNoncesPerInvocation ∧
      (spec.fullSubgroups = true → info.subgroupSize ∣ width) ∧
      (lanes ≠ 1 ∨ spec.takesNonces = false → nonces = 1) := by
  have hl : 0 < orElse spec.lanes 1 := orElse_pos _ Nat.one_pos
  have hw : 0 < orElse spec.localSizeX (orElse t.workgroup (chooseLocalSize info)) :=
    orElse_pos _ (orElse_pos _ chooseLocalSize_pos)
  obtain ⟨hpos,hdvd⟩ := wholeLanes hw hl
  simp only [workgroup,bind,Except.bind,pure,Except.pure,throw,throwThe,MonadExceptOf.throw] at h
  split at h
  · cases h
  split at h
  · cases h
  rename_i hstep
  obtain ⟨hpos,hdvd,hsub⟩ := wholeSubgroups hpos hdvd fun hf =>
    Nat.pos_of_ne_zero fun hz => hstep ⟨hf,.inl hz⟩
  split at h
  · rename_i hone
    split at h
    · cases h
    rename_i hmost
    cases h
    have hn := chosenNonces t.noncesPerInvocation (by decide) hmost
    exact ⟨rfl,hpos,hdvd,hn.1,hn.2,hsub,fun hor => by simp [hone] at hor⟩
  · split at h
    · cases h
    rename_i hmost
    cases h
    have hn := chosenNonces t.noncesPerInvocation (by decide) hmost
    exact ⟨rfl,hpos,hdvd,hn.1,Nat.le_trans hn.2 (by decide),hsub,
      fun _ => Nat.le_antisymm hn.2 hn.1⟩

/-- What a fit chose: whole hashes to the workgroup, and no more of them than one dispatch of
the backend may have. -/
structure Chosen (m : Main) (info : DeviceInfo) (fit : KernelFit) : Prop where
  pos : 0 < fit.perGroup
  small : fit.perGroup < narrow
  reaches : m.lanes = 1 → fit.perGroup ≤ fit.localSizeX * fit.nonces
  whole : m.takesNonces = false → fit.localSizeX = fit.perGroup * m.lanes ∧ fit.nonces = 1
  nonces : 0 < fit.nonces ∧ fit.nonces ≤ kMaxNoncesPerInvocation
  subgroups : m = .subgroup → info.subgroupSize ∣ fit.localSizeX
  batch : fit.maxBatch ≤ kMaxBatch

theorem fit_cases (h : vulkanKernelFit t info spec shared = .ok fit) :
    workgroup t info spec = .ok (fit.localSizeX,fit.lanes,fit.nonces) ∧
      fit.perGroup = orElse (fit.localSizeX / fit.lanes * fit.nonces % narrow) 1 ∧
      fit.maxBatch ≤ kMaxBatch := by
  simp only [vulkanKernelFit] at h
  cases hg : workgroup t info spec with
  | error r =>
    rw [hg] at h
    cases h
  | ok g =>
    obtain ⟨width,lanes,nonces⟩ := g
    rw [hg] at h
    simp only [bind,Except.bind,pure,Except.pure,throw,throwThe,MonadExceptOf.throw] at h
    split at h
    · cases h
      exact ⟨rfl,rfl,Nat.le_refl _⟩
    split at h
    · cases h
    split at h
    · cases h
    split at h
    · cases h
    · cases h
      exact ⟨rfl,rfl,Nat.le_trans (Nat.div_mul_le_self _ _) (Nat.min_le_right _ _)⟩

theorem orElse_mod_le {n : Nat} (h : 0 < n) : orElse (n % narrow) 1 ≤ n := by
  simp only [orElse]
  split
  · exact h
  · exact Nat.mod_le n narrow

theorem orElse_mod_lt (n : Nat) : orElse (n % narrow) 1 < narrow := by
  simp only [orElse]
  split
  · decide
  · exact Nat.mod_lt n (by decide)

theorem chosen (hf : vulkanKernelFit t info spec shared = .ok fit) (hs : s.Suits info spec)
    (hwidth : fit.localSizeX < narrow) : Chosen s.main info fit := by
  obtain ⟨hw,hper,hb⟩ := fit_cases hf
  obtain ⟨hl,hpos,hdvd,hn,hmost,hsub,hone⟩ := workgroup_whole hw
  rw [hs.lanes] at hl
  have hlanes : 0 < fit.lanes := Nat.pos_of_dvd_of_pos hdvd hpos
  have hwhole : 0 < fit.localSizeX / fit.lanes := Nat.div_pos (Nat.le_of_dvd hpos hdvd) hlanes
  have hprod : 0 < fit.localSizeX / fit.lanes * fit.nonces := Nat.mul_pos hwhole hn
  refine ⟨?_,hper ▸ orElse_mod_lt _,fun hm => ?_,fun ht => ?_,⟨hn,hmost⟩,fun hm => hsub ?_,hb⟩
  · exact hper ▸ orElse_pos _ Nat.one_pos
  · have hle := orElse_mod_le hprod
    rwa [← hper,hl,hm,Nat.div_one] at hle
  · have hn1 := hone (.inr (hs.takesNonces.trans ht))
    have hlt := Nat.lt_of_le_of_lt (Nat.div_le_self fit.localSizeX fit.lanes) hwidth
    rw [hn1,Nat.mul_one,Nat.mod_eq_of_lt hlt,orElse,if_neg hwhole.ne'] at hper
    exact ⟨by rw [hper,← hl,Nat.div_mul_cancel hdvd],hn1⟩
  · rw [hs.fullSubgroups,hm]
    rfl

theorem filter_past {first left : Nat} (h : count ≤ first) :
    (range' first left).filter (· < count) = [] := by
  refine filter_eq_nil_iff.mpr fun i hi => ?_
  have := (mem_range'_1.mp hi).1
  simpa using Nat.le_trans h this

theorem oneByOne_eq {first k left : Nat} (h : first + k + left ≤ narrow) :
    oneByOne first count k left = (range' (first + k) left).filter (· < count) := by
  induction left generalizing k with
  | zero => rfl
  | succ left ih =>
    have hmod : (first + k) % narrow = first + k := Nat.mod_eq_of_lt (by omega)
    simp only [oneByOne,hmod]
    split
    · rename_i hpast
      exact (filter_past hpast).symm
    · rename_i hin
      rw [ih (by omega),range'_succ,filter_cons_of_pos (by simpa using hin)]
      rfl

theorem twoByTwo_eq {first k left : Nat} (h : first + k + left ≤ narrow) :
    twoByTwo first count k left = (range' (first + k) left).filter (· < count) := by
  induction left using Nat.twoStepInduction generalizing k with
  | zero => rfl
  | one =>
    have hmod : (first + k) % narrow = first + k := Nat.mod_eq_of_lt (by omega)
    simp only [twoByTwo,hmod,range'_one]
    split
    · rename_i hpast
      rw [filter_cons_of_neg (by simpa using hpast),filter_nil]
    · rename_i hin
      rw [filter_cons_of_pos (by simpa using hin),filter_nil]
  | more left ih _ =>
    have hmod : (first + k) % narrow = first + k := Nat.mod_eq_of_lt (by omega)
    have hnext : (first + k + 1) % narrow = first + k + 1 := Nat.mod_eq_of_lt (by omega)
    simp only [twoByTwo,hmod,hnext]
    split
    · rename_i hpast
      exact (filter_past hpast).symm
    · rename_i hin
      rw [ih (by omega),range'_succ,range'_succ,filter_cons_of_pos (by simpa using hin)]
      split
      · rename_i htwo
        rw [filter_cons_of_pos (by simpa using htwo)]
        rfl
      · rename_i hone
        rw [filter_cons_of_neg (by simpa using hone)]
        rfl

theorem oneByOne_past {first left : Nat} (hf : first < narrow) (h : count ≤ first) :
    oneByOne first count 0 left = [] := by
  cases left with
  | zero => rfl
  | succ left =>
    simp only [oneByOne,Nat.add_zero,Nat.mod_eq_of_lt hf]
    exact if_pos h

theorem twoByTwo_past {first left : Nat} (hf : first < narrow) (h : count ≤ first) :
    twoByTwo first count 0 left = [] := by
  match left with
  | 0 => rfl
  | 1 | left + 2 =>
    simp only [twoByTwo,Nat.add_zero,Nat.mod_eq_of_lt hf]
    exact if_pos h

/-- A kernel whose invocations are hashes of their own searches the block of its index, also
where the index has wrapped to somewhere past the dispatch. -/
theorem search_block {j g p : Nat} (hm : m.lanes = 1) (hn : m.takesNonces = false → l.nonces = 1)
    (hpos : 0 < l.nonces) (hj : j = g * l.width + p)
    (h : j * l.nonces + l.nonces ≤ narrow ∨
      l.count ≤ j * l.nonces ∧ l.count ≤ j * l.nonces % narrow) :
    m.search l g p = (range' (j * l.nonces) l.nonces).filter (· < l.count) := by
  have hid : l.globalId g p = j % narrow := by rw [Launch.globalId,← hj]
  have hfirst : j % narrow * l.nonces % narrow = j * l.nonces % narrow := by
    rw [Nat.mul_mod,Nat.mod_mod,← Nat.mul_mod]
  have hlt : j * l.nonces % narrow < narrow := Nat.mod_lt _ (by decide)
  obtain h | ⟨hpast,hwrap⟩ := h
  · have hmod : j * l.nonces % narrow = j * l.nonces := Nat.mod_eq_of_lt (by omega)
    rw [hmod] at hfirst
    cases m with
    | single =>
      rw [hn rfl,Nat.mul_one] at hmod
      simp only [Main.search,hid,hn rfl,hmod,range'_one,Nat.mul_one]
      split
      · rename_i hpast
        rw [filter_cons_of_neg (by simpa using hpast),filter_nil]
      · rename_i hin
        rw [filter_cons_of_pos (by simpa using hin),filter_nil]
    | looped =>
      simp only [Main.search,hid,hfirst]
      exact oneByOne_eq h
    | paired =>
      simp only [Main.search,hid,hfirst]
      exact twoByTwo_eq h
    | barrier => exact absurd hm (by decide)
    | subgroup => exact absurd hm (by decide)
  · rw [filter_past hpast]
    cases m with
    | single =>
      rw [hn rfl,Nat.mul_one] at hwrap
      simp only [Main.search,hid]
      exact if_pos hwrap
    | looped =>
      simp only [Main.search,hid,hfirst]
      exact oneByOne_past hlt hwrap
    | paired =>
      simp only [Main.search,hid,hfirst]
      exact twoByTwo_past hlt hwrap
    | barrier => exact absurd hm (by decide)
    | subgroup => exact absurd hm (by decide)

theorem firstLane_eq (lane index : Nat) : firstLane count lane index =
    if lane = 0 then (range' index 1).filter (· < count) else [] := by
  simp only [firstLane,range'_one,ite_not]
  split
  · split
    · rename_i hpast
      rw [filter_cons_of_neg (by simpa using hpast),filter_nil]
    · rename_i hin
      rw [filter_cons_of_pos (by simpa using hin),filter_nil]
  · rfl

theorem search_lanes {j g p : Nat} (hm : m.lanes = kLanes) (hw : kLanes ∣ l.width)
    (hs : m = .subgroup → l.subgroupSize ∣ l.width ∧ kLanes ∣ l.subgroupSize ∧ 0 < l.subgroupSize)
    (hj : j = g * l.width + p) (h : j / kLanes < narrow) (hid : m = .barrier → j < narrow) :
    m.search l g p =
      if j % kLanes = 0 then (range' (j / kLanes) 1).filter (· < l.count) else [] := by
  cases m with
  | single => exact absurd hm (by decide)
  | looped => exact absurd hm (by decide)
  | paired => exact absurd hm (by decide)
  | barrier =>
    have hlane : p % kLanes = j % kLanes := by
      obtain ⟨c,hc⟩ := hw
      rw [hj,hc,Nat.mul_left_comm,Nat.mul_add_mod]
    rw [Main.search,Launch.globalId,← hj,Nat.mod_eq_of_lt (hid rfl),hlane,firstLane_eq]
  | subgroup =>
    obtain ⟨⟨c,hc⟩,⟨d,hd⟩,hpos⟩ := hs rfl
    have hj' : j = l.subgroupSize * (g * c) + p := by rw [hj,hc,Nat.mul_left_comm]
    have hper : l.width / l.subgroupSize = c := by rw [hc,Nat.mul_div_cancel_left _ hpos]
    have hlanes : l.subgroupSize / kLanes = d := by rw [hd,Nat.mul_div_cancel_left _ (by decide)]
    have hsub : g * c + p / l.subgroupSize = j / l.subgroupSize := by
      rw [hj',Nat.mul_add_div hpos]
    have hplace : p % l.subgroupSize = j % l.subgroupSize := by rw [hj',Nat.mul_add_mod]
    have hindex : j / l.subgroupSize * d + j % l.subgroupSize / kLanes = j / kLanes := by
      conv_rhs => rw [← Nat.div_add_mod j l.subgroupSize,hd,Nat.mul_assoc,
        Nat.mul_add_div (by decide),Nat.mul_comm d,← hd]
    have hlane : j % l.subgroupSize % kLanes = j % kLanes := Nat.mod_mod_of_dvd j ⟨d,hd⟩
    have hle : j / l.subgroupSize ≤ j / kLanes :=
      Nat.div_le_div_left (Nat.le_of_dvd hpos ⟨d,hd⟩) (by decide)
    simp only [Main.search,hper,hlanes,hsub,hplace,hlane]
    rw [Nat.mod_eq_of_lt (Nat.lt_of_le_of_lt hle h),hindex,Nat.mod_eq_of_lt h,firstLane_eq]

theorem searched_eq {groups : Nat} {f : Nat → List Nat}
    (h : ∀ g p, g * l.width + p < groups * l.width → m.search l g p = f (g * l.width + p)) :
    searched m l (range groups) = (range (groups * l.width)).flatMap f := by
  rw [← Grid.flatMap_blocks]
  refine flatMap_congr fun g hg => flatMap_congr fun p hp => h g p ?_
  have hg := Nat.mul_le_mul_right l.width (Nat.succ_le_of_lt (mem_range.mp hg))
  have hp := mem_range.mp hp
  rw [Nat.succ_mul] at hg
  omega

theorem Main.lanes_cases (m : Main) : m.lanes = 1 ∨ m.lanes = kLanes ∧ m.takesNonces = false := by
  cases m <;> decide

theorem rounded_spec (hc : 0 < count) (hp : 0 < fit.perGroup) :
    count ≤ rounded fit count * fit.perGroup ∧
      rounded fit count * fit.perGroup < count + fit.perGroup := by
  have hd := Nat.div_add_mod (count + fit.perGroup - 1) fit.perGroup
  have hm := Nat.mod_lt (count + fit.perGroup - 1) hp
  rw [Nat.mul_comm] at hd
  rw [rounded]
  omega

theorem Chosen.count_lt (hc : Chosen m info fit) (hb : count ≤ fit.maxBatch) :
    count + kMaxNoncesPerInvocation ≤ narrow :=
  Nat.le_trans (Nat.add_le_add_right (Nat.le_trans hb hc.batch) _) (by decide)

theorem Within.firsts_all (h : Within s info fit count) (hc : Chosen s.main info fit)
    (hm : s.main.lanes = 1) (hpos : 0 < count) {j : Nat}
    (hj : j < rounded fit count * fit.localSizeX) (hn : narrow ≤ j * fit.nonces) :
    count ≤ j * fit.nonces % narrow := by
  cases ht : s.main.takesNonces with
  | true => exact h.firsts ht j hj hn
  | false =>
    obtain ⟨hw,h1⟩ := hc.whole ht
    rw [hm,Nat.mul_one] at hw
    rw [hw] at hj
    rw [h1,Nat.mul_one] at hn
    have := (rounded_spec hpos hc.pos).2
    have := h.counted
    omega

theorem Within.searched_blocks (h : Within s info fit count) (hc : Chosen s.main info fit)
    (hm : s.main.lanes = 1) (hpos : 0 < count) (hb : count ≤ fit.maxBatch) :
    searched s.main (launchOf info fit count) (range (rounded fit count)) = range count := by
  have hle : count ≤ rounded fit count * fit.localSizeX * fit.nonces := by
    rw [Nat.mul_assoc]
    exact Nat.le_trans (rounded_spec hpos hc.pos).1 (Nat.mul_le_mul_left _ (hc.reaches hm))
  rw [← Grid.filter_range hle,← Grid.range_blocks,← Grid.filter_flatMap]
  refine searched_eq fun g p hj =>
    search_block hm (fun ht => (hc.whole ht).2) hc.nonces.1 rfl ?_
  have hcount := hc.count_lt hb
  have hmost := hc.nonces.2
  by_cases hn : narrow ≤ (g * fit.localSizeX + p) * fit.nonces
  · exact .inr ⟨by change count ≤ _; change count ≤ (g * fit.localSizeX + p) * fit.nonces; omega,h.firsts_all hc hm hpos hj hn⟩
  · have hmod : (g * fit.localSizeX + p) * fit.nonces % narrow =
        (g * fit.localSizeX + p) * fit.nonces := Nat.mod_eq_of_lt (by omega)
    change (g * fit.localSizeX + p) * fit.nonces + fit.nonces ≤ narrow ∨
      count ≤ (g * fit.localSizeX + p) * fit.nonces ∧
        count ≤ (g * fit.localSizeX + p) * fit.nonces % narrow
    omega

theorem Within.searched_lanes (h : Within s info fit count) (hc : Chosen s.main info fit)
    (ho : s.main = .subgroup → kLanes ≤ info.subgroupSize ∧ info.subgroupSize % kLanes = 0)
    (hm : s.main.lanes = kLanes) (ht : s.main.takesNonces = false) (hpos : 0 < count) :
    searched s.main (launchOf info fit count) (range (rounded fit count)) = range count := by
  obtain ⟨hle,hlt⟩ := rounded_spec hpos hc.pos
  have hw : fit.localSizeX = fit.perGroup * kLanes := hm ▸ (hc.whole ht).1
  have hper : rounded fit count * fit.localSizeX =
      rounded fit count * fit.perGroup * kLanes := by
    rw [hw,Nat.mul_assoc]
  have hone : (range (rounded fit count * fit.perGroup)).filter (· < count) =
      (range (rounded fit count * fit.perGroup)).flatMap fun i =>
        (range' i 1).filter (· < count) := by
    rw [Grid.filter_flatMap]
    simp
  rw [← Grid.filter_range hle,hone,← Grid.flatMap_firsts _ (by decide : 0 < kLanes),← hper]
  refine searched_eq fun g p hj => search_lanes hm ⟨_,hw.trans (Nat.mul_comm _ _)⟩ ?_ rfl ?_
    fun hb => Nat.lt_of_lt_of_le hj (h.lanes hb)
  · intro hb
    obtain ⟨hle,hmod⟩ := ho hb
    exact ⟨hc.subgroups hb,Nat.dvd_of_mod_eq_zero hmod,Nat.lt_of_lt_of_le (by decide) hle⟩
  · refine Nat.lt_of_lt_of_le ((Nat.div_lt_iff_lt_mul (by decide)).mpr ?_)
      (Nat.le_trans (Nat.le_of_lt hlt) h.counted)
    exact hper ▸ hj

theorem exact_of_perm {indices : List Nat} (h : indices.Perm (range count))
    (hc : count ≤ m.nonces) :
    Exact m start count (indices.map fun index => (start + index) % m.nonces) := by
  have hp := h.map fun index => (start + index) % m.nonces
  have hnd : ((range count).map fun index => (start + index) % m.nonces).Nodup := by
    refine Nodup.map_on (fun i hi j hj he => ?_) nodup_range
    have hi := Nat.lt_of_lt_of_le (mem_range.mp hi) hc
    have hj := Nat.lt_of_lt_of_le (mem_range.mp hj) hc
    have hmod : i % m.nonces = j % m.nonces := Nat.ModEq.add_left_cancel' start he
    rwa [Nat.mod_eq_of_lt hi,Nat.mod_eq_of_lt hj] at hmod
  refine ⟨fun i hi => ?_,fun n hn => ?_⟩
  · rw [hp.count_eq]
    exact count_eq_one_of_mem hnd (mem_map_of_mem (mem_range.mpr hi))
  · obtain ⟨i,hi,rfl⟩ := mem_map.mp (hp.mem_iff.mp hn)
    exact ⟨i,mem_range.mp hi,rfl⟩

theorem not_exact_nil (hc : 0 < count) : ¬Exact m start count [] :=
  fun h => absurd (h.once 0 hc) (by simp)

theorem narrow_le_nonces (m : Main) : narrow ≤ m.nonces := by
  cases m <;> decide

theorem groupsOf_counted (hc : 0 < count) (h : count + fit.perGroup ≤ narrow) :
    groupsOf fit count = rounded fit count := by
  rw [groupsOf,Nat.mod_eq_of_lt (by omega),rounded]

theorem Within.covers (h : Within s info fit count) (hc : Chosen s.main info fit)
    (ho : s.main = .subgroup → kLanes ≤ info.subgroupSize ∧ info.subgroupSize % kLanes = 0)
    (hpos : 0 < count) (hb : count ≤ fit.maxBatch) : Covers s info fit start count := by
  intro runs hruns
  refine ⟨_,if_neg (Nat.not_lt.mpr hb),exact_of_perm ?_ ?_⟩
  · have hlimit : info.maxWorkgroupCount = 0 ∨ rounded fit count ≤ info.maxWorkgroupCount := by
      refine h.limit.imp_right fun hl => Nat.le_of_lt_succ ?_
      rw [rounded,Nat.div_lt_iff_lt_mul hc.pos,Nat.succ_mul]
      have := hc.pos
      omega
    have hrange : searched s.main (launchOf info fit count) (range (rounded fit count)) =
        range count := by
      obtain hm | ⟨hm,ht⟩ := s.main.lanes_cases
      · exact h.searched_blocks hc hm hpos hb
      · exact h.searched_lanes hc ho hm ht hpos
    rw [groupsOf_counted hpos h.counted]
    exact hrange ▸ (hruns _ hlimit).flatMap_right _
  · exact Nat.le_trans (Nat.le_trans hb hc.batch)
      (Nat.le_trans (by decide) (narrow_le_nonces s.main))

/-- A driver that runs nothing past its limit. -/
def idle (info : DeviceInfo) (groups : Nat) : List Nat :=
  if info.maxWorkgroupCount = 0 ∨ groups ≤ info.maxWorkgroupCount then range groups else []

theorem drives_idle : Drives info (idle info) := fun groups h => by
  rw [idle,if_pos h]

theorem drives_range : Drives info range := fun _ _ => .refl _

theorem Covers.exact (h : Covers s info fit start count) (hb : count ≤ fit.maxBatch)
    {runs : Nat → List Nat} (hr : Drives info runs) :
    Exact s.main start count ((searched s.main (launchOf info fit count)
      (runs (groupsOf fit count))).map fun index => (start + index) % s.main.nonces) := by
  obtain ⟨nonces,hd,he⟩ := h runs hr
  rw [dispatch,if_neg (Nat.not_lt.mpr hb)] at hd
  exact Option.some.inj hd ▸ he

theorem Covers.counted (h : Covers s info fit start count) (hc : Chosen s.main info fit)
    (hp : fit.perGroup < narrow) (hpos : 0 < count) (hb : count ≤ fit.maxBatch) :
    count + fit.perGroup ≤ narrow := by
  by_contra hgt
  have hcount : count < narrow :=
    Nat.lt_of_le_of_lt (Nat.le_trans hb hc.batch) (by decide)
  have hzero : groupsOf fit count = 0 := by
    have hmod : (count + fit.perGroup - 1) % narrow = count + fit.perGroup - 1 - narrow := by
      rw [Nat.mod_eq_sub_mod (by omega)]
      exact Nat.mod_eq_of_lt (by omega)
    rw [groupsOf,hmod]
    exact Nat.div_eq_of_lt (by omega)
  have he := h.exact hb drives_range
  rw [hzero] at he
  exact not_exact_nil hpos he

theorem Covers.limit (h : Covers s info fit start count) (hc : Chosen s.main info fit)
    (hw : count + fit.perGroup ≤ narrow) (hpos : 0 < count) (hb : count ≤ fit.maxBatch) :
    info.maxWorkgroupCount = 0 ∨ count ≤ info.maxWorkgroupCount * fit.perGroup := by
  by_contra hn
  obtain ⟨hz,hgt⟩ := not_or.mp hn
  have hover : ¬(info.maxWorkgroupCount = 0 ∨ groupsOf fit count ≤ info.maxWorkgroupCount) := by
    refine not_or.mpr ⟨hz,fun hle => hgt ?_⟩
    rw [groupsOf_counted hpos hw] at hle
    exact Nat.le_trans (rounded_spec hpos hc.pos).1 (Nat.mul_le_mul_right _ hle)
  have he := h.exact hb drives_idle
  rw [idle,if_neg hover] at he
  exact not_exact_nil hpos he

theorem not_exact_of_twice {n a b i : Nat} {f : Nat → List Nat} (hab : a < b) (hbn : b < n)
    (ha : i ∈ f a) (hb : i ∈ f b) (hi : i < count) :
    ¬Exact m start count (((range n).flatMap f).map fun index => (start + index) % m.nonces) := by
  intro he
  obtain ⟨d,rfl⟩ := Nat.exists_eq_add_of_lt hbn
  rw [Nat.add_assoc,range_add,flatMap_append,flatMap_map,map_append] at he
  have hfirst : i ∈ (range b).flatMap f := mem_flatMap.mpr ⟨a,mem_range.mpr hab,ha⟩
  have hagain : i ∈ (range (d + 1)).flatMap fun j => f (b + j) :=
    mem_flatMap.mpr ⟨0,mem_range.mpr (Nat.succ_pos d),hb⟩
  have hone := he.once i hi
  rw [count_append] at hone
  have h1 := count_pos_iff.mpr
    (mem_map_of_mem (f := fun index => (start + index) % m.nonces) hfirst)
  have h2 := count_pos_iff.mpr
    (mem_map_of_mem (f := fun index => (start + index) % m.nonces) hagain)
  omega

/-- The workgroups end to end, for a kernel that goes by its global index. -/
theorem searched_flat {groups : Nat} (hm : m ≠ .subgroup) (hw : m = .barrier → kLanes ∣ l.width) :
    searched m l (range groups) = (range (groups * l.width)).flatMap fun j => m.search l 0 j := by
  refine searched_eq fun g p _ => ?_
  have hid : l.globalId 0 (g * l.width + p) = l.globalId g p := by
    simp only [Launch.globalId,Nat.zero_mul,Nat.zero_add]
  cases m with
  | single => simp only [Main.search,hid]
  | looped => simp only [Main.search,hid]
  | paired => simp only [Main.search,hid]
  | barrier =>
    obtain ⟨c,hc⟩ := hw rfl
    have hlane : (g * l.width + p) % kLanes = p % kLanes := by
      rw [hc,Nat.mul_left_comm,Nat.mul_add_mod]
    simp only [Main.search,hid,hlane]
  | subgroup => exact absurd rfl hm

theorem Covers.not_twice (h : Covers s info fit start count) (hw : count + fit.perGroup ≤ narrow)
    (hpos : 0 < count) (hb : count ≤ fit.maxBatch) (hm : s.main ≠ .subgroup)
    (hl : s.main = .barrier → kLanes ∣ fit.localSizeX) {i a b : Nat} (hi : i < count)
    (hab : a < b) (hbn : b < rounded fit count * fit.localSizeX)
    (ha : i ∈ s.main.search (launchOf info fit count) 0 a)
    (hb' : i ∈ s.main.search (launchOf info fit count) 0 b) : False := by
  have he := h.exact hb drives_range
  rw [groupsOf_counted hpos hw,searched_flat hm hl] at he
  exact not_exact_of_twice hab hbn ha hb' hi he

/-- Where the global index wraps, the first nonce is searched again. -/
theorem Covers.lanes (h : Covers s info fit start count) (hc : Chosen s.main info fit)
    (hw : count + fit.perGroup ≤ narrow) (hpos : 0 < count) (hb : count ≤ fit.maxBatch)
    (hm : s.main = .barrier) : rounded fit count * fit.localSizeX ≤ narrow := by
  by_contra hgt
  have hwhole : fit.localSizeX = kLanes * fit.perGroup := by
    obtain ⟨hx,-⟩ := hc.whole (by rw [hm]; rfl)
    rw [hx,hm,Nat.mul_comm]
    rfl
  have hstart : ∀ j, j % kLanes = 0 → j % narrow = 0 →
      0 ∈ s.main.search (launchOf info fit count) 0 j := by
    intro j hl hz
    rw [hm,Main.search,Launch.globalId,Nat.zero_mul,Nat.zero_add,hl,hz,Nat.zero_div,
      firstLane,if_neg (not_not.mpr rfl),launchOf,if_neg (Nat.not_le.mpr hpos)]
    exact mem_singleton_self 0
  exact h.not_twice hw hpos hb (by rw [hm]; decide) (fun _ => ⟨_,hwhole⟩) hpos (by decide)
    (Nat.not_le.mp hgt) (hstart 0 rfl rfl) (hstart narrow rfl (Nat.mod_self narrow))

theorem oneByOne_first {first left : Nat} (hf : first < narrow) (h : first < count)
    (hl : 0 < left) : first ∈ oneByOne first count 0 left := by
  obtain ⟨left,rfl⟩ := Nat.exists_eq_add_of_le' hl
  simp only [oneByOne,Nat.add_zero,Nat.mod_eq_of_lt hf,if_neg (Nat.not_le.mpr h)]
  exact mem_cons_self

theorem twoByTwo_first {first left : Nat} (hf : first < narrow) (h : first < count)
    (hl : 0 < left) : first ∈ twoByTwo first count 0 left := by
  match left with
  | 0 => exact absurd hl (Nat.lt_irrefl 0)
  | 1 =>
    simp only [twoByTwo,Nat.add_zero,Nat.mod_eq_of_lt hf,if_neg (Nat.not_le.mpr h)]
    exact mem_cons_self
  | left + 2 =>
    simp only [twoByTwo,Nat.add_zero,Nat.mod_eq_of_lt hf,if_neg (Nat.not_le.mpr h)]
    split
    · exact mem_cons_self
    · exact mem_cons_self

theorem search_first {j : Nat} (ht : m.takesNonces = true) (hn : 0 < l.nonces)
    (h : j * l.nonces % narrow < l.count) : j * l.nonces % narrow ∈ m.search l 0 j := by
  have hfirst : l.globalId 0 j * l.nonces % narrow = j * l.nonces % narrow := by
    rw [Launch.globalId,Nat.zero_mul,Nat.zero_add,Nat.mul_mod,Nat.mod_mod,← Nat.mul_mod]
  have hlt : j * l.nonces % narrow < narrow := Nat.mod_lt _ (by decide)
  cases m with
  | single => cases ht
  | looped =>
    simp only [Main.search,hfirst]
    exact oneByOne_first hlt h hn
  | paired =>
    simp only [Main.search,hfirst]
    exact twoByTwo_first hlt h hn
  | barrier => cases ht
  | subgroup => cases ht

theorem search_own {i : Nat} (hm : m.lanes = 1) (ht : m.takesNonces = true) (hn : 0 < l.nonces)
    (hi : i < l.count) (h : i + l.nonces ≤ narrow) : i ∈ m.search l 0 (i / l.nonces) := by
  have hd := Nat.div_add_mod i l.nonces
  have hr := Nat.mod_lt i hn
  rw [Nat.mul_comm] at hd
  have hj : i / l.nonces = 0 * l.width + i / l.nonces := by rw [Nat.zero_mul,Nat.zero_add]
  rw [search_block hm (fun hf => by rw [ht] at hf; cases hf) hn hj (.inl (by omega))]
  refine mem_filter.mpr ⟨mem_range'_1.mpr ?_,by simpa using hi⟩
  omega

/-- Where a first nonce comes round, it is searched by the invocation it belongs to as well. -/
theorem Covers.firsts (h : Covers s info fit start count) (hc : Chosen s.main info fit)
    (hw : count + fit.perGroup ≤ narrow) (hpos : 0 < count) (hb : count ≤ fit.maxBatch)
    (ht : s.main.takesNonces = true) : ∀ j < rounded fit count * fit.localSizeX,
      narrow ≤ j * fit.nonces → count ≤ j * fit.nonces % narrow := by
  intro j hj hn
  by_contra hge
  have hlt := Nat.not_le.mp hge
  have hm : s.main.lanes = 1 ∧ s.main ≠ .subgroup ∧ s.main ≠ .barrier := by
    cases hm : s.main <;> simp_all [Main.takesNonces,Main.lanes]
  have hbefore : j * fit.nonces % narrow / fit.nonces < j := by
    rw [Nat.div_lt_iff_lt_mul hc.nonces.1]
    exact Nat.lt_of_lt_of_le (Nat.mod_lt _ (by decide)) hn
  have hin : j * fit.nonces % narrow + fit.nonces ≤ narrow :=
    Nat.le_trans (Nat.add_le_add (Nat.le_of_lt hlt) hc.nonces.2) (hc.count_lt hb)
  exact h.not_twice hw hpos hb hm.2.1 (fun hbar => absurd hbar hm.2.2) hlt hbefore hj
    (search_own hm.1 ht hc.nonces.1 hlt hin) (search_first ht hc.nonces.1 hlt)

/-- A dispatch hashes what it was given, each nonce once and none besides, exactly where its
workgroups are within the device's limit and its indices within 32 bits. -/
theorem covers_iff (s : Shader) (start : Nat) (hf : vulkanKernelFit t info spec shared = .ok fit)
    (hs : s.Suits info spec) (hwidth : fit.localSizeX < narrow) (hpos : 0 < count)
    (hb : count ≤ fit.maxBatch) : Covers s info fit start count ↔ Within s info fit count := by
  have hc := chosen hf hs hwidth
  constructor
  · intro h
    have hw := h.counted hc hc.small hpos hb
    exact ⟨h.limit hc hw hpos hb,hw,h.lanes hc hw hpos hb,h.firsts hc hw hpos hb⟩
  · exact fun h => h.covers hc hs.offered hpos hb

def card : DeviceInfo :=
  ⟨17179869184,.discreteGpu,32,1024,1024,2147483647,4294967292,4294967295⟩

def kernelOf (m : Main) : KernelSpec :=
  ⟨true,m.takesNonces,1,128,0,0,if m.lanes = 1 then 0 else m.lanes,decide (m = .subgroup),
    0,0,0,0,0,0,0,0,0⟩

theorem suits_kernelOf (s : Shader) : s.Suits card (kernelOf s.main) := by
  refine ⟨rfl,?_,rfl,fun _ => by decide⟩
  cases s.main <;> decide

/-- An odd count for a kernel that takes two at a time, over two workgroups. -/
theorem covers_groestl_odd : Covers .groestl card ⟨256,1,2,512,3,kMaxBatch,0⟩ 4294966000 1001 := by
  have hf : vulkanKernelFit ⟨0,0,2⟩ card (kernelOf .paired) 0 =
      .ok ⟨256,1,2,512,3,kMaxBatch,0⟩ := rfl
  refine (covers_iff .groestl 4294966000 hf (suits_kernelOf .groestl) (by decide) (by decide)
    (by decide)).mpr ⟨by decide,by decide,nofun,fun _ j hj hn => ?_⟩
  have hgroups : rounded ⟨256,1,2,512,3,kMaxBatch,0⟩ 1001 * 256 = 512 := rfl
  simp only [hgroups,narrow] at hj hn
  omega

/-- Workgroups of 384 invocations, which are 24 hashes: the largest dispatch takes more than
2^32 of them, and the first eight nonces are hashed again. -/
theorem not_always_covers : ∃ t info spec shared fit s start count,
    vulkanKernelFit t info spec shared = .ok fit ∧ Shader.Suits s info spec ∧
      fit.localSizeX < narrow ∧ 0 < count ∧ count ≤ fit.maxBatch ∧
      ¬Covers s info fit start count := by
  have hf : vulkanKernelFit ⟨0,384,0⟩ card (kernelOf .barrier) 0 =
      .ok ⟨384,16,1,24,3,kMaxBatch,0⟩ := rfl
  refine ⟨⟨0,384,0⟩,card,kernelOf .barrier,0,⟨384,16,1,24,3,kMaxBatch,0⟩,.progpow,0,kMaxBatch,hf,
    suits_kernelOf .progpow,by decide,by decide,by decide,fun h => ?_⟩
  have hc := chosen hf (suits_kernelOf .progpow) (by decide)
  have hle := h.lanes hc (by decide) (by decide) (by decide) rfl
  exact absurd hle (by decide)

end VkMiner.Vulkan.Coverage
