import VkMiner.Control.Parking
import VkMiner.Host.Registry
import VkMiner.Vulkan.WouldFit
set_option autoImplicit false

/-! The change of algorithm at runtime: what is asked before it, what a refusal has touched by
then, and the barrier that puts the miner back. -/

namespace VkMiner.Switch
open CandidateLog Registry Vulkan

inductive BackendKind where
  | vulkan | cpu | null
  deriving DecidableEq

/-- What a switch reads and does not move: the backend with its devices, the options, the
kernels that an algorithm has for a device, by variant, and the words of a refusal. -/
structure Process where
  backend : BackendKind
  devices : List DeviceInfo
  deviceMap : List Nat
  optKernel : CStr
  tuning : Tuning
  kernel : Algorithm → DeviceInfo → KernelSpec
  kernels : Algorithm → DeviceInfo → List (Option CStr × KernelSpec)
  words : Refusal → CStr

abbrev Tables := Nat → Option Vulkan.Held

structure Miner where
  control : Control.Machine
  settings : ProtocolSettings
  tables : Tables

/-- What the devices answer to a self-test: whether the reference agrees with the published
hashes, what a build runs into, and whether a kernel finds the known answers. -/
structure TestCalls where
  reference : Bool
  create : Nat → Nat → CreateCalls
  builds : Nat → Nat → Bool
  reproduces : Nat → Nat → Bool

/-! ### The devices -/

/-- Something happens to the table of a device. Only one backend has any. -/
def onDevice (p : Process) (d : Nat) (f : Vulkan.Held → Option Vulkan.Held) (t : Tables) :
    Tables :=
  if p.backend = .vulkan ∧ d < p.devices.length then Function.update t d ((t d).bind f) else t

def retainSharedState (p : Process) (d : Nat) (retain : Bool) (t : Tables) : Tables :=
  onDevice p d (Held.retain · retain) t

def wouldFitOn (p : Process) (a : Algorithm) (t : Tables) (d : Nat) : Except Refusal Unit :=
  match p.backend with
  | .vulkan =>
    match p.devices[d]? with
    | none => .error .noDevice
    | some info => (wouldFit p.tuning info (t d) (p.kernel a info)).map fun _ => ()
  | .cpu | .null => .ok ()

def testKernel (p : Process) (calls : TestCalls) (d v : Nat) (info : DeviceInfo)
    (spec : KernelSpec) (t : Tables) : Bool × Tables :=
  match p.backend with
  | .vulkan =>
    match createKernel p.tuning info (t d) spec (calls.create d v) with
    | (.error _,held) => (false,Function.update t d held)
    | (.ok _,held) =>
      (calls.reproduces d v,
        Function.update t d (if spec.sharedBytes = 0 then held else held.bind Held.left))
  | .cpu | .null => (calls.builds d v && calls.reproduces d v,t)

def testKernels (p : Process) (calls : TestCalls) (d : Nat) (info : DeviceInfo) :
    List KernelSpec → Nat → Tables → Bool × Tables
  | [],_,t => (true,t)
  | spec :: rest,v,t =>
    match testKernel p calls d v info spec t with
    | (false,t) => (false,t)
    | (true,t) => testKernels p calls d info rest (v+1) t

def variantsOf (p : Process) (a : Algorithm) (info : DeviceInfo) : List KernelSpec :=
  if p.optKernel.isEmpty then (p.kernels a info).map Prod.snd
  else (((p.kernels a info).find? (·.1 = some p.optKernel)).map Prod.snd).toList

def testDevices (p : Process) (calls : TestCalls) (a : Algorithm) :
    List Nat → Tables → Bool × Tables
  | [],t => (true,t)
  | d :: rest,t =>
    match p.devices[d]? with
    | none => (false,t)
    | some info =>
      if (variantsOf p a info).isEmpty then (false,t)
      else
        match testKernels p calls d info (variantsOf p a info) 0 t with
        | (false,t) => (false,t)
        | (true,t) => testDevices p calls a rest t

def selfTest (p : Process) (calls : TestCalls) (a : Algorithm) (t : Tables) : Bool × Tables :=
  if calls.reference then testDevices p calls a p.deviceMap t else (false,t)

/-! ### The switch -/

inductive Complaint where
  | unknown (name : CStr)
  | device (d : Nat) (r : Refusal)
  | selfTest (name : CStr)
  deriving DecidableEq

def Complaint.text (p : Process) : Complaint → CStr
  | .unknown name => ascii "no algorithm called '" ++ name ++ ascii "'"
  | .device d r => ascii "device " ++ decimal d ++ ascii ": " ++ p.words r
  | .selfTest name => ascii "'" ++ name ++ ascii "' fails its self-test on this " ++
      ascii "build, so its shares would be rejected"

/-- The first device that could not hold the algorithm. -/
def misfit (p : Process) (a : Algorithm) (t : Tables) : List Nat → Option (Nat × Refusal)
  | [] => none
  | d :: rest =>
    match wouldFitOn p a t d with
    | .error r => some (d,r)
    | .ok () => misfit p a t rest

def dropPins (p : Process) (t : Tables) : Tables :=
  p.deviceMap.foldl (fun t d => retainSharedState p d false t) t

def switchAlgorithm (p : Process) (calls : TestCalls) (name : CStr) (t : Tables) :
    Except Complaint Unit × Tables :=
  match createAlgorithm name with
  | none => (.error (.unknown name),t)
  | some a =>
    let t := dropPins p t
    match misfit p a t p.deviceMap with
    | some (d,r) => (.error (.device d r),t)
    | none =>
      if p.backend = .null then (.ok (),t)
      else
        match selfTest p calls a t with
        | (false,t) => (.error (.selfTest name),t)
        | (true,t) => (.ok (),t)

namespace Miner

def moved (x : Miner) (m : Control.Machine) (settings : ProtocolSettings) (t : Tables) : Miner :=
  { x with
    control := { m with profile := m.profile.after m.pool, apply := .written m.current }
    settings := settings
    tables := t }

/-- `control_pool_apply`, up to where it reads the hold. -/
def controlPoolApply (p : Process) (calls : TestCalls) (x : Miner) : Miner :=
  if !x.control.pool.pending then x
  else
    let m := x.control.takePool
    if m.pool.algo.isEmpty then x.moved m x.settings x.tables
    else if !m.switchHook then { x with control := m.refusePool false m.current [] }
    else
      match switchAlgorithm p calls m.pool.algo x.tables with
      | (.error why,t) =>
        { x with control := m.refusePool true m.current (why.text p), tables := t }
      | (.ok (),t) => x.moved m (bindProtocolSettings m.pool.algo x.settings) t

def posted (opt : Control.Options) (x : Miner) (algo url user pass : CStr)
    (want : Option Control.ControlState) : Miner :=
  { x with control := x.control.postPoolLocked opt url user pass algo false want }

end Miner

/-- A worker that parks: which, on what device, and whether its kernel holds the table. -/
structure Park where
  worker : Nat
  device : Nat
  holds : Bool

def released (holds : Bool) (h : Vulkan.Held) : Option Vulkan.Held :=
  if holds ∧ h.kernels ≠ 0 then h.left else some h

def comesRound (m : Control.Machine) (i : Nat) : Control.Machine :=
  match m.threads[i]? with
  | some (.parked gen _) => m.parkPass i gen
  | _ => m

namespace Miner

/-- The worker's device is told what to keep, its kernel goes, and it is counted in. -/
def park (p : Process) (x : Miner) (w : Park) : Miner :=
  let m := comesRound x.control w.worker
  { x with
    control := m.controlPark w.worker m.retainShared
    tables := onDevice p w.device (released w.holds)
      (retainSharedState p w.device m.retainShared x.tables) }

def parkAll (p : Process) (x : Miner) (ws : List Park) : Miner := ws.foldl (park p) x

end Miner

/-- The table a device is to keep in a run state, by its size: only a pause keeps one. -/
def retention (s : Control.ControlState) (held : Option Vulkan.Held) : Option Nat :=
  if s = .paused then held.map Held.bytes else none

structure AsBefore (x y : Miner) : Prop where
  profile : y.control.profile = x.control.profile
  settings : y.settings = x.settings
  state : y.control.state = x.control.state
  retention : ∀ d, retention y.control.state (y.tables d) = retention x.control.state (x.tables d)

/-- The switch is asked about, and some device has a table that only a park is holding. -/
def GivesUp (p : Process) (y : Miner) : Prop :=
  p.backend = .vulkan ∧ y.control.switchHook = true ∧
    (createAlgorithm y.control.pool.algo).isSome = true ∧
    ∃ d ∈ p.deviceMap, d < p.devices.length ∧ ∃ h ∈ y.tables d, h.kernels = 0

variable {p : Process} {calls : TestCalls} {t : Tables} {d : Nat} {held : Option Vulkan.Held}

/-! ### The table under a pin -/

def Unpinned (held : Option Vulkan.Held) : Prop := ∀ h ∈ held, h.pinned = false

theorem unpin_cases (held : Option Vulkan.Held) :
    (held.bind (Held.retain · false) = none ∧ ∀ h ∈ held, h.kernels = 0) ∨
    ∃ h ∈ held, h.kernels ≠ 0 ∧ ∃ h', held.bind (Held.retain · false) = some h' ∧
      h'.bytes = h.bytes ∧ h'.kernels = h.kernels ∧ h'.pinned = false := by
  cases held with
  | none => exact .inl ⟨rfl,nofun⟩
  | some h =>
    simp only [Option.bind_some,Held.retain,Held.ofOwners]
    by_cases hk : h.kernels = 0
    · refine .inl ⟨dif_neg (by simp [hk]),?_⟩
      rintro _ ⟨⟩
      exact hk
    · exact .inr ⟨h,rfl,hk,_,dif_pos (.inl hk),rfl,rfl,rfl⟩

theorem unpin_unpinned (held : Option Vulkan.Held) : Unpinned (held.bind (Held.retain · false)) := by
  intro h hm
  obtain ⟨hn,-⟩ | ⟨_,-,-,h',hs,-,-,hp⟩ := unpin_cases held
  · rw [hn] at hm
    cases hm
  · rw [hs] at hm
    cases hm
    exact hp

theorem unpin_bytes_iff (held : Option Vulkan.Held) :
    (held.bind (Held.retain · false)).map Held.bytes = held.map Held.bytes ↔
      ∀ h ∈ held, h.kernels ≠ 0 := by
  obtain ⟨hn,hk⟩ | ⟨h,hm,hk,h',hs,hb,-,-⟩ := unpin_cases held
  · rw [hn]
    cases held with
    | none => exact ⟨fun _ => nofun,fun _ => rfl⟩
    | some h => exact ⟨nofun,fun hne => absurd (hk h rfl) (hne h rfl)⟩
  · rw [hs]
    cases hm
    refine ⟨fun _ => ?_,fun _ => congrArg some hb⟩
    rintro _ ⟨⟩
    exact hk

theorem Unpinned.ofOwners {h : Vulkan.Held} (hu : Unpinned (some h)) :
    Held.ofOwners h.bytes h.kernels false = some h := by
  obtain ⟨bytes,kernels,pinned,owned⟩ := h
  obtain rfl : pinned = false := hu _ rfl
  exact dif_pos owned

theorem Unpinned.unpin (hu : Unpinned held) : held.bind (Held.retain · false) = held := by
  cases held with
  | none => rfl
  | some h => exact hu.ofOwners

theorem Unpinned.unpinned (hu : Unpinned held) (bytes : Nat) : unpinned held bytes = held := by
  cases held with
  | none => rfl
  | some h => simp only [Vulkan.unpinned,Option.bind_some,hu h rfl,Bool.false_eq_true,and_false,if_false]

/-- A kernel built on the table and let go leaves it to those who had it. -/
theorem Unpinned.left {info : DeviceInfo} {spec : KernelSpec} {c : CreateCalls} {h : Vulkan.Held}
    (hu : Unpinned held) (hs : sharedFor info held spec c = .ok h) : h.left = held := by
  rw [sharedFor,hu.unpinned] at hs
  cases held with
  | none =>
    simp only [bind,Except.bind] at hs
    split at hs
    · cases hs
    · split at hs
      · cases hs
        rfl
      · cases hs
  | some l =>
    simp only [] at hs
    split at hs
    · cases hs
    · cases hs
      exact hu.ofOwners

/-! ### The self-test -/

theorem createKernel_left {g : Tuning} {info : DeviceInfo} {spec : KernelSpec} {c : CreateCalls}
    (hu : Unpinned held) :
    (∀ r held',createKernel g info held spec c = (.error r,held') → held' = held) ∧
    (∀ f held',createKernel g info held spec c = (.ok f,held') →
      (if spec.sharedBytes = 0 then held' else held'.bind Held.left) = held) := by
  unfold createKernel
  by_cases hs : spec.hasSpirv = true
  · by_cases hz : spec.sharedBytes = 0
    · simp only [hs,hz,Bool.not_true,Bool.false_eq_true,if_false,if_true,Prod.mk.injEq]
      exact ⟨fun r held' h => h.2.symm,fun f held' h => h.2.symm⟩
    · simp only [hs,hz,Bool.not_true,Bool.false_eq_true,if_false]
      cases hf : sharedFor info held spec c with
      | error r =>
        simp only [hu.unpinned,Prod.mk.injEq]
        exact ⟨fun r held' h => h.2.symm,nofun⟩
      | ok h =>
        have hl := hu.left hf
        cases hi : initKernel g info spec h.bytes c with
        | error r =>
          simp only [hi,hl,Prod.mk.injEq]
          exact ⟨fun r held' h => h.2.symm,nofun⟩
        | ok fit =>
          simp only [hi,Prod.mk.injEq]
          refine ⟨nofun,fun f held' hk => ?_⟩
          rw [← hk.2]
          exact hl
  · simp only [hs,Bool.not_false,if_true,Prod.mk.injEq]
    exact ⟨fun r held' h => h.2.symm,nofun⟩

theorem testKernel_same (calls : TestCalls) (v : Nat) (info : DeviceInfo) (spec : KernelSpec)
    (hu : p.backend = .vulkan → Unpinned (t d)) : (testKernel p calls d v info spec t).2 = t := by
  unfold testKernel
  cases hb : p.backend with
  | cpu => rfl
  | null => rfl
  | vulkan =>
    obtain ⟨herr,hok⟩ := @createKernel_left (t d) p.tuning info spec (calls.create d v) (hu hb)
    simp only []
    split
    · next heq => rw [herr _ _ heq,Function.update_eq_self]
    · next heq => rw [hok _ _ heq,Function.update_eq_self]

theorem testKernels_same (calls : TestCalls) (info : DeviceInfo)
    (hu : p.backend = .vulkan → Unpinned (t d)) (specs : List KernelSpec) (v : Nat) : (testKernels p calls d info specs v t).2 = t := by
  induction specs generalizing v with
  | nil => rfl
  | cons spec rest ih =>
    have hk := testKernel_same calls v info spec hu
    unfold testKernels
    split
    · next heq => rwa [heq] at hk
    · next heq =>
      rw [heq] at hk
      obtain rfl := hk
      exact ih (v+1)

theorem testDevices_same {a : Algorithm} {ds : List Nat}
    (hu : ∀ d ∈ ds, p.backend = .vulkan → d < p.devices.length → Unpinned (t d)) :
    (testDevices p calls a ds t).2 = t := by
  induction ds with
  | nil => rfl
  | cons d rest ih =>
    unfold testDevices
    cases hi : p.devices[d]? with
    | none => rfl
    | some info =>
      have hlt : d < p.devices.length := (List.getElem?_eq_some_iff.mp hi).1
      have hk := testKernels_same calls info (fun hb => hu d List.mem_cons_self hb hlt)
        (variantsOf p a info) 0
      simp only []
      split
      · rfl
      · split
        · next heq => rwa [heq] at hk
        · next heq =>
          rw [heq] at hk
          obtain rfl := hk
          exact ih fun d hd => hu d (List.mem_cons_of_mem _ hd)

theorem selfTest_same (calls : TestCalls) (a : Algorithm)
    (hu : ∀ d ∈ p.deviceMap, p.backend = .vulkan → d < p.devices.length → Unpinned (t d)) :
    (selfTest p calls a t).2 = t := by
  unfold selfTest
  split
  · exact testDevices_same hu
  · rfl

/-! ### The refusal -/

theorem onDevice_at (p : Process) (e : Nat) (f : Vulkan.Held → Option Vulkan.Held) (t : Tables)
    (d : Nat) : onDevice p e f t d =
      if p.backend = .vulkan ∧ d < p.devices.length ∧ d = e then (t d).bind f else t d := by
  unfold onDevice
  split
  · next h =>
    by_cases he : d = e
    · rw [he,Function.update_self,if_pos ⟨h.1,h.2,rfl⟩]
    · rw [Function.update_of_ne he,if_neg (fun hd => he hd.2.2)]
  · next h =>
    rw [if_neg]
    rintro ⟨hb,hlt,rfl⟩
    exact h ⟨hb,hlt⟩

theorem dropPins_at (p : Process) (t : Tables) (d : Nat) : dropPins p t d =
    if p.backend = .vulkan ∧ d < p.devices.length ∧ d ∈ p.deviceMap then
      (t d).bind (Held.retain · false)
    else t d := by
  unfold dropPins
  generalize p.deviceMap = ds
  have hsame := (unpin_unpinned (t d)).unpin
  induction ds generalizing t with
  | nil => simp
  | cons e rest ih =>
    have hat := onDevice_at p e (Held.retain · false) t d
    rw [List.foldl_cons,ih _ (unpin_unpinned _).unpin,retainSharedState]
    by_cases he : d = e
    · subst he
      split_ifs at hat ⊢ <;> simp_all
    · simp only [he,and_false,if_false] at hat
      simp only [hat,List.mem_cons,he,false_or]

theorem dropPins_unpinned (hd : d ∈ p.deviceMap) (hb : p.backend = .vulkan)
    (hlt : d < p.devices.length) : Unpinned (dropPins p t d) := by
  rw [dropPins_at,if_pos ⟨hb,hlt,hd⟩]
  exact unpin_unpinned (t d)

theorem switch_refused {name : CStr} {why : Complaint}
    (h : (switchAlgorithm p calls name t).1 = .error why) : (switchAlgorithm p calls name t).2 =
      if (createAlgorithm name).isSome then dropPins p t else t := by
  unfold switchAlgorithm at h ⊢
  cases hc : createAlgorithm name with
  | none => rfl
  | some a =>
    have hs : (selfTest p calls a (dropPins p t)).2 = dropPins p t :=
      selfTest_same calls a fun d hd hb hlt => dropPins_unpinned hd hb hlt
    simp only [hc] at h ⊢
    cases hm : misfit p a (dropPins p t) p.deviceMap with
    | some x => rfl
    | none =>
      simp only [hm] at h ⊢
      split
      · next hn =>
        rw [if_pos hn] at h
        cases h
      · split
        · next heq => rwa [heq] at hs
        · next heq => rwa [heq] at hs

/-- The tables when a change is refused: as they were, where nobody was asked. -/
def leftover (p : Process) (y : Miner) : Tables :=
  if y.control.switchHook = true ∧ (createAlgorithm y.control.pool.algo).isSome = true then
    dropPins p y.tables
  else y.tables

namespace Miner
variable {x y : Miner}

/-- What a refused change leaves: the run state it was asked in, and the tables as the hook
left them. -/
theorem refused_cases (hu : y.control.pool.refused = false)
    (hr : (y.controlPoolApply p calls).control.pool.refused = true) :
    ∃ k why hook,y.controlPoolApply p calls =
      { y with
        control := y.control.takePool.refusePool hook k why
        tables := leftover p y } := by
  have hm : y.control.takePool.pool.refused = false := hu
  have hh : y.control.takePool.switchHook = y.control.switchHook := rfl
  have ha : y.control.takePool.pool.algo = y.control.pool.algo := rfl
  unfold controlPoolApply at hr ⊢
  generalize y.control.takePool = m at *
  simp only [hh,ha] at hr ⊢
  split_ifs at hr ⊢ with hq he hk
  · cases hu.symm.trans hr
  · cases hm.symm.trans hr
  · have hl : leftover p y = y.tables := if_neg fun h => by simp [h.1] at hk
    exact ⟨_,_,_,by rw [hl]⟩
  · cases hs : switchAlgorithm p calls y.control.pool.algo y.tables with
    | mk result t =>
      cases result with
      | error why =>
        have ht := switch_refused (congrArg Prod.fst hs)
        rw [hs] at ht
        have hl : leftover p y = t := by simp_all [leftover]
        exact ⟨_,_,_,by rw [hl]⟩
      | ok _ =>
        simp only [hs] at hr
        cases hm.symm.trans hr

end Miner

/-! ### From the request to its refusal -/

/-- What stays as it was posted while the workers park. -/
structure Posted (x m : Control.Machine) : Prop where
  profile : m.profile = x.profile
  previous : m.previous = x.state
  retains : m.retainShared = decide (x.state ≠ .stopped)
  state : m.state = .switching
  poolSwitch : m.poolSwitch = true
  done : m.pool.done = false
  refused : m.pool.refused = false

namespace Posted
variable {x m : Control.Machine}

theorem handOver (h : Posted x m) : Posted x m.handOver :=
  ⟨h.profile,h.previous,h.retains,h.state,h.poolSwitch,h.done,h.refused⟩

theorem settle (h : Posted x m) (cause : Option Nat) : Posted x (m.settleLocked cause).2 := by
  simp only [Control.Machine.settleLocked,h.state,ne_eq,not_true_eq_false,if_false,h.poolSwitch,
    if_true]
  split
  · exact h
  · have hd : ∀ b : Bool,(if b = true then m.handOver else m).pool.done = false := by
      intro b
      cases b
      · exact h.done
      · exact h.handOver.done
    rw [if_pos (by rw [hd]; rfl)]
    split
    · exact h.handOver
    · exact h

theorem parkPass (h : Posted x m) (i gen : Nat) : Posted x (m.parkPass i gen) := by
  unfold Control.Machine.parkPass
  split
  · exact h
  · have hl : Posted x (m.leavePark i gen) :=
      ⟨h.profile,h.previous,h.retains,h.state,h.poolSwitch,h.done,h.refused⟩
    exact hl.settle none

theorem controlPark (h : Posted x m) (i : Nat) (retains : Bool) :
    Posted x (m.controlPark i retains) := by
  unfold Control.Machine.controlPark
  split
  · exact ⟨h.profile,h.previous,h.retains,h.state,h.poolSwitch,h.done,h.refused⟩
  · have he : Posted x (m.enterPark i retains) :=
      ⟨h.profile,h.previous,h.retains,h.state,h.poolSwitch,h.done,h.refused⟩
    exact (he.settle none).parkPass i m.parkGen

theorem comesRound (h : Posted x m) (i : Nat) : Posted x (comesRound m i) := by
  unfold Switch.comesRound
  split
  · exact h.parkPass i _
  · exact h

end Posted

/-- A park that keeps the table leaves it on the device, with a kernel or without. -/
theorem kept_bytes (holds : Bool) (held : Option Vulkan.Held) :
    ((held.bind (Held.retain · true)).bind (released holds)).map Held.bytes =
      held.map Held.bytes := by
  cases held with
  | none => rfl
  | some h =>
    have hp : h.retain true = some ⟨h.bytes,h.kernels,true,.inr rfl⟩ := dif_pos (.inr rfl)
    simp only [Option.bind_some,hp,released]
    split
    · have hl : Held.left ⟨h.bytes,h.kernels,true,.inr rfl⟩ =
          some ⟨h.bytes,h.kernels-1,true,.inr rfl⟩ := dif_pos (.inr rfl)
      rw [hl]
      rfl
    · rfl

/-- A miner whose workers are parking for a change. -/
structure Waiting (x y : Miner) : Prop where
  posted : Posted x.control y.control
  settings : y.settings = x.settings
  kept : x.control.state ≠ .stopped → ∀ d,(y.tables d).map Held.bytes = (x.tables d).map Held.bytes

namespace Waiting
variable {x y : Miner}

theorem start (opt : Control.Options) (x : Miner) (algo url user pass : CStr)
    (want : Option Control.ControlState) : Waiting x (x.posted opt algo url user pass want) :=
  ⟨⟨rfl,rfl,rfl,rfl,rfl,rfl,rfl⟩,rfl,fun _ _ => rfl⟩

theorem park (h : Waiting x y) (w : Park) : Waiting x (y.park p w) := by
  have hp := h.posted.comesRound w.worker
  refine ⟨hp.controlPark w.worker _,h.settings,fun hs d => ?_⟩
  rw [← h.kept hs d]
  have hr : (comesRound y.control w.worker).retainShared = true := by
    rw [hp.retains]
    exact decide_eq_true hs
  simp only [Miner.park,hr,retainSharedState,onDevice_at]
  split
  · exact kept_bytes w.holds (y.tables d)
  · rfl

theorem parkAll (h : Waiting x y) (ws : List Park) : Waiting x (y.parkAll p ws) := by
  induction ws generalizing y with
  | nil => exact h
  | cons w rest ih => exact ih (h.park w)

end Waiting

/-- The table of a device outlives the refusal, unless its pin was all that held it. -/
theorem leftover_bytes_iff (p : Process) (y : Miner) :
    (∀ d,(leftover p y d).map Held.bytes = (y.tables d).map Held.bytes) ↔ ¬GivesUp p y := by
  unfold leftover GivesUp
  by_cases ha : y.control.switchHook = true ∧ (createAlgorithm y.control.pool.algo).isSome = true
  · simp only [ha,and_self,if_true,dropPins_at,true_and]
    constructor
    · rintro h ⟨hb,d,hd,hlt,held,hm,hk⟩
      have hd' := h d
      rw [if_pos ⟨hb,hlt,hd⟩] at hd'
      exact (unpin_bytes_iff _).mp hd' held hm hk
    · intro h d
      split
      · next hc => exact (unpin_bytes_iff _).mpr fun held hm hk => h ⟨hc.1,d,hc.2.2,hc.2.1,held,hm,hk⟩
      · rfl
  · rw [if_neg ha]
    exact ⟨fun _ h => ha ⟨h.2.1,h.2.2.1⟩,fun _ _ => rfl⟩

/-- After a refusal the miner is as it was before the request, unless it was paused and the
switch gave up a table. -/
theorem refusal_restores_iff (p : Process) (opt : Control.Options) (calls : TestCalls) (x : Miner)
    (algo url user pass : CStr) (want : Option Control.ControlState) (ws : List Park) (y : Miner)
    (hy : y = (x.posted opt algo url user pass want).parkAll p ws)
    (hr : (y.controlPoolApply p calls).control.pool.refused = true) :
    AsBefore x (y.controlPoolApply p calls) ↔ ¬(x.control.state = .paused ∧ GivesUp p y) := by
  have hw : Waiting x y := hy ▸ (Waiting.start opt x algo url user pass want).parkAll ws
  obtain ⟨k,why,hook,hz⟩ := Miner.refused_cases hw.posted.refused hr
  have hstate : (y.control.takePool.refusePool hook k why).state = x.control.state :=
    hw.posted.previous
  rw [hz]
  constructor
  · rintro h ⟨hs,hg⟩
    refine (leftover_bytes_iff p y).mp (fun d => ?_) hg
    have hd := h.retention d
    simp only [hstate,retention,hs,if_true] at hd
    rw [hd,hw.kept (by rw [hs]; decide) d]
  · intro h
    refine ⟨hw.posted.profile,hw.settings,hstate,fun d => ?_⟩
    simp only [hstate,retention]
    split
    · next hs =>
      rw [(leftover_bytes_iff p y).mpr (fun hg => h ⟨hs,hg⟩) d,
        hw.kept (by rw [hs]; decide) d]
    · rfl

def fourGigabytes : DeviceInfo :=
  ⟨4294967296,.discreteGpu,32,1024,1024,4194304,4292870144,4294967295⟩

/-- Evrmore's table, three gigabytes at its first epoch and five at the last that is declared. -/
def evrmoreTable : KernelSpec :=
  ⟨true,false,17,92,0,0,16,false,0,3221224064,5402263424,16,0,0,0,0,1⟩

def oneDevice : Process :=
  ⟨.vulkan,[fourGigabytes],[0],[],untuned,fun _ _ => evrmoreTable,fun _ _ => [(none,evrmoreTable)],
    fun _ => []⟩

def allWell : TestCalls := ⟨true,fun _ _ => ⟨true,true,true,true⟩,fun _ _ => true,fun _ _ => true⟩

def pausedMiner : Miner where
  control :=
    ((Control.Machine.start 1 Control.kawpow true).controlRequest Control.stock .paused 0).controlPark
      0 true
  settings := settingsOf .kawpow
  tables := fun d => if d = 0 then Held.ofOwners 1073739904 0 true else none

def poolUrl : CStr := ascii "stratum+tcp://a:2"

def awaiting (algo : CStr) : Miner :=
  (pausedMiner.posted Control.stock algo poolUrl [] [] none).parkAll oneDevice [⟨0,0,false⟩]

theorem unknown_name_restores : AsBefore pausedMiner
    ((awaiting (ascii "ethash")).controlPoolApply oneDevice allWell) :=
  (refusal_restores_iff oneDevice Control.stock allWell pausedMiner (ascii "ethash") poolUrl [] []
    none [⟨0,0,false⟩] (awaiting (ascii "ethash")) rfl (by decide +kernel)).mpr fun h => by
      have hname := h.2.2.2.1
      revert hname
      decide +kernel

/-- A table that does not fit is refused, and the one that the pause was keeping is gone. -/
theorem paused_table_lost : ¬∀ (p : Process) (opt : Control.Options) (calls : TestCalls)
    (x : Miner) (algo url user pass : CStr) (want : Option Control.ControlState) (ws : List Park)
    (y : Miner), y = (x.posted opt algo url user pass want).parkAll p ws →
    (y.controlPoolApply p calls).control.pool.refused = true →
      AsBefore x (y.controlPoolApply p calls) := by
  intro hall
  have h := hall oneDevice Control.stock allWell pausedMiner (ascii "evrprogpow") poolUrl [] [] none
    [⟨0,0,false⟩] (awaiting (ascii "evrprogpow")) rfl (by decide +kernel)
  have hr := h.retention 0
  revert hr
  decide +kernel

end VkMiner.Switch
