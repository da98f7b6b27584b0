import VkMiner.Scheduler.Reports
import VkMiner.Vulkan.Caller
set_option autoImplicit false

/-! A worker on the kernels of the Vulkan backend. -/

namespace VkMiner.Scheduler.Mining
open Runs Vulkan

/-- A kernel with its ring, and the size of dispatch it has settled on by now. What it was last
prepared for and what was dispatched are history. -/
structure VulkanKernel where
  shape : Shape
  machine : Machine
  batch : UInt32
  algo : Algorithm
  size : Nat
  state : Option Nat
  program : Option Nat
  sent : List Launch

/-- What the algorithm and the driver answer to one call: `finishes` is what the device is done
with by then. -/
structure VulkanCalls where
  shape : Shape
  created : Bool
  finishes : List (Nat × List UInt32)
  ensured : Bool
  program : ProgramCalls
  dispatch : DispatchCalls
  collect : CollectCalls
  batch : UInt32

namespace VulkanKernel

def finishing (c : VulkanCalls) : List Vulkan.Event := c.finishes.map fun f => .finish f.1 f.2

def found (k : VulkanKernel) (c : VulkanCalls) : Machine :=
  attempts (Vulkan.step k.shape) k.machine (finishing c)

def create (a : Algorithm) (size : Nat) (c : VulkanCalls) : Option VulkanKernel :=
  if c.created then some ⟨c.shape,Vulkan.start c.shape,c.batch,a,size,none,none,[]⟩ else none

def prepareState (k : VulkanKernel) (key : Nat) (c : VulkanCalls) : Bool × VulkanKernel :=
  let ok := !k.shape.shared || c.ensured
  (ok,{ k with
    machine := attempts (Vulkan.step k.shape) (k.found c) [.prepareState c.ensured]
    state := if ok then some key else k.state })

/-- A program that would have to be changed while the one before it is being kept has the device
waited for. -/
def prepareProgram (k : VulkanKernel) (key : Nat) (c : VulkanCalls) : Bool × VulkanKernel :=
  let e : Vulkan.Event := .prepareProgram key c.program
  let ok := (Vulkan.step k.shape (k.found c) e).isSome &&
    ((k.found c).prepareProgram k.shape key c.program).1
  (ok,{ k with
    machine := attempts (Vulkan.step k.shape) (k.found c) [e]
    program := if ok then some key else k.program })

def dispatch (k : VulkanKernel) (x : Launch) (c : VulkanCalls) : Bool × VulkanKernel :=
  let r := (k.found c).dispatch k.shape x.start.toNat x.count c.dispatch
  (r.1,{ k with machine := r.2, sent := if r.1 then k.sent ++ [x] else k.sent })

/-- The answer is the last that the ring gave, or that there was nothing to wait for. -/
def collect (k : VulkanKernel) (max : Nat) (c : VulkanCalls) :
    Option (List Solution) × VulkanKernel :=
  let m := (k.found c).collect k.shape max c.collect
  (if (k.found c).inflight = 0 then some [] else m.returned.getLast?.bind Return.answer,
    { k with machine := m, batch := c.batch })

end VulkanKernel

def vulkan : Backend where
  Kernel := VulkanKernel
  Calls := VulkanCalls
  create := VulkanKernel.create
  queueDepth k := k.shape.depth
  preferredBatch k := k.batch
  prepareState := VulkanKernel.prepareState
  prepareProgram := VulkanKernel.prepareProgram
  dispatch := VulkanKernel.dispatch
  collect := VulkanKernel.collect

/-- The device has not failed a collect yet. -/
def Unfailed (m : Machine) : Prop := ∀ r ∈ m.returned, r.answer ≠ none

def Launch.asked (x : Launch) : Nat × Nat × Nat := (x.start.toNat,x.count,x.programKey)

def ringAsked (l : Vulkan.Launch) : Nat × Nat × Nat := (l.start,l.count,l.key)

namespace VulkanKernel

/-- The ring has only been stepped as it should be, and no pipeline is being kept. -/
structure Sound (k : VulkanKernel) : Prop where
  spaced : Reach (Vulkan.step k.shape) (Spaced k.shape) (Vulkan.start k.shape) k.machine
  seenOff : Unfailed k.machine → k.machine.givenUp = [] ∧
    Reach (Vulkan.step k.shape) (SeenOff k.shape) (Vulkan.start k.shape) k.machine
  retiring : k.machine.retiring = none
  sent : k.machine.launched.map ringAsked = k.sent.map Launch.asked
  program : ∀ key, k.program = some key → k.machine.prepared = key ∧
    (k.shape.programConstants ≠ 0 → k.machine.programReady = true ∧ k.machine.programKey = key)

def held (k : VulkanKernel) : List Launch := k.sent.drop k.machine.returned.length

/-- The launch was the kernel's `i`th, and the solutions are out of the words that its device wrote
for the `i`th dispatch of its ring. No two of those have the same ticket. -/
def Wrote (k : VulkanKernel) (max : Nat) (x : Launch) (found : List Solution) : Prop :=
  ∃ (i : Nat) (l : Vulkan.Launch) (words : List UInt32), k.sent[i]? = some x ∧
    k.machine.launched[i]? = some l ∧ ringAsked l = x.asked ∧ (l,words) ∈ k.machine.finished ∧
      found = solutions words max

variable {k : VulkanKernel} {c : VulkanCalls} {x : Launch} {m m' : Machine} {key : Nat}

theorem Sound.inStep (h : k.Sound) : InStep k.shape k.machine := inStep_reach h.spaced

theorem Sound.held_length (h : k.Sound) : k.held.length = k.machine.outstanding.length := by
  have := congrArg List.length h.sent
  simp only [List.length_map] at this
  simp [held,Machine.outstanding,this]

theorem Sound.held_nil (h : k.Sound) : k.held = [] ↔ k.machine.outstanding = [] := by
  rw [← List.length_eq_zero_iff,h.held_length,List.length_eq_zero_iff]

theorem Sound.wrote {i max : Nat} {r : Return} {found : List Solution} (h : k.Sound)
    (hs : k.sent[i]? = some x) (hr : k.machine.returned[i]? = some r) (hmax : r.max = max)
    (ha : r.answer = some found) : k.Wrote max x found := by
  have hasked : (k.machine.launched.map ringAsked)[i]? = some x.asked := by
    rw [h.sent,List.getElem?_map,hs]
    rfl
  rw [List.getElem?_map] at hasked
  obtain ⟨l,hl,hasked⟩ := Option.map_eq_some_iff.mp hasked
  obtain ⟨-,hanswers⟩ := h.inStep.answers i r l hr hl
  obtain ⟨words,hw,hfound⟩ := hanswers found ha
  exact ⟨i,l,words,hs,hl,hasked,hw,by rw [hfound,hmax]⟩

/-- A step of the ring that the two disciplines admit. -/
structure Admits (k : VulkanKernel) (m m' : Machine) (e : Vulkan.Event) : Prop where
  step : Vulkan.step k.shape m e = some m'
  spaced : Spaced k.shape m e
  seenOff : m.givenUp = [] → SeenOff k.shape m e

theorem seenOff_of_givenUp {s : Shape} {e : Vulkan.Event} (hl : letsGo s m e ≠ none →
    lastSlots m e = m.givenUp) (hg : m.givenUp = []) : SeenOff s m e := by
  intro p hp i hi
  rw [hl (by simp [Option.mem_def.mp hp]),hg] at hi
  cases hi

theorem Sound.next {e : Vulkan.Event} (h : k.Sound) (ha : k.Admits k.machine m' e)
    (hret : ∃ rs, m'.returned = k.machine.returned ++ rs)
    (hg : Unfailed m' → k.machine.givenUp = [] → m'.givenUp = []) :
    Reach (Vulkan.step k.shape) (Spaced k.shape) (Vulkan.start k.shape) m' ∧
      (Unfailed m' → m'.givenUp = [] ∧
        Reach (Vulkan.step k.shape) (SeenOff k.shape) (Vulkan.start k.shape) m') := by
  refine ⟨.next h.spaced ha.spaced ha.step,fun hu => ?_⟩
  obtain ⟨rs,hrs⟩ := hret
  have hold : Unfailed k.machine := fun r hr => hu r (by rw [hrs]; exact List.mem_append_left _ hr)
  obtain ⟨hnil,hreach⟩ := h.seenOff hold
  exact ⟨hg hu hnil,.next hreach (ha.seenOff hnil) ha.step⟩

theorem finish_eq {s : Shape} {f : Nat × List UInt32}
    (h : Vulkan.step s m (.finish f.1 f.2) = some m') :
    ∃ slots finished, m' = { m with slots := slots, finished := finished } := by
  simp only [Vulkan.step,waits,Bool.false_and,Bool.false_eq_true,if_false,Machine.finish] at h
  split at h
  · cases h
    exact ⟨_,_,rfl⟩
  · cases h

theorem Sound.found (h : k.Sound) (c : VulkanCalls) : { k with machine := k.found c }.Sound ∧
    (k.found c).returned = k.machine.returned ∧ (k.found c).outstanding = k.machine.outstanding ∧
    (k.found c).begun = k.machine.begun := by
  have hfinish : ∀ e ∈ finishing c, ∃ f : Nat × List UInt32, e = .finish f.1 f.2 := by
    intro e he
    obtain ⟨f,-,rfl⟩ := List.mem_map.mp he
    exact ⟨f,rfl⟩
  have hkeep : ∀ {β : Type} (look : Machine → β), (∀ (m : Machine) slots finished,
      look { m with slots := slots, finished := finished } = look m) →
      look (k.found c) = look k.machine := by
    intro β look hlook
    refine attempts_keep look (fun e he s s' hs => ?_) _
    obtain ⟨f,rfl⟩ := hfinish e he
    obtain ⟨slots,finished,rfl⟩ := finish_eq hs
    exact hlook s slots finished
  have hret := hkeep Machine.returned fun _ _ _ => rfl
  refine ⟨⟨?_,fun hu => ?_,?_,?_,fun key hk => ?_⟩,hret,?_,?_⟩
  · refine h.spaced.attempts fun e he s => ?_
    obtain ⟨f,rfl⟩ := hfinish e he
    trivial
  · obtain ⟨hg,hr⟩ := h.seenOff fun r hr => hu r (by rw [hret]; exact hr)
    refine ⟨(hkeep Machine.givenUp fun _ _ _ => rfl).trans hg,hr.attempts fun e he s => ?_⟩
    obtain ⟨f,rfl⟩ := hfinish e he
    exact nofun
  · exact (hkeep Machine.retiring fun _ _ _ => rfl).trans h.retiring
  · rw [← h.sent]
    exact congrArg _ (hkeep Machine.launched fun _ _ _ => rfl)
  · have hp := h.program key hk
    rw [← hkeep Machine.prepared fun _ _ _ => rfl,← hkeep Machine.programReady fun _ _ _ => rfl,
      ← hkeep Machine.programKey fun _ _ _ => rfl] at hp
    exact hp
  · exact hkeep Machine.outstanding fun _ _ _ => rfl
  · exact hkeep Machine.begun fun _ _ _ => rfl

theorem prepareState_sound (h : k.Sound) (key : Nat) (c : VulkanCalls) :
    (k.prepareState key c).2.Sound ∧ (k.prepareState key c).2.held = k.held ∧
      (InLine k.machine → InLine (k.prepareState key c).2.machine) := by
  obtain ⟨hf,hret,hout,hbegun⟩ := h.found c
  have hstep : ∃ ready, Vulkan.step k.shape (k.found c) (.prepareState c.ensured) =
      some { k.found c with stateReady := ready } := by
    simp only [Vulkan.step,waits,Bool.false_and,Bool.false_eq_true,if_false]
    cases k.shape.shared && c.ensured
    · exact ⟨(k.found c).stateReady,rfl⟩
    · exact ⟨true,rfl⟩
  obtain ⟨ready,hs⟩ := hstep
  have he : (k.prepareState key c).2.machine = { k.found c with stateReady := ready } := by
    simp only [prepareState,attempts,hs,Option.getD_some]
  obtain ⟨hspaced,hseen⟩ := hf.next ⟨hs,trivial,fun _ _ hp => by cases hp⟩
    ⟨[],(List.append_nil (k.found c).returned).symm⟩ fun _ => id
  refine ⟨⟨he ▸ hspaced,he ▸ hseen,?_,?_,?_⟩,?_,fun hl => ?_⟩
  · rw [he]
    exact hf.retiring
  · rw [he]
    exact hf.sent
  · rw [he]
    exact hf.program
  · rw [held,he]
    exact congrArg (k.sent.drop ·.length) hret
  · rw [he]
    intro i l hi
    have := hl i l (by rw [← hout]; exact hi)
    rw [← hout,← hbegun] at this
    exact this

theorem Sound.inflight_of_held (h : k.Sound) (hh : k.held = []) : k.machine.inflight = 0 := by
  have := h.inStep.inflight
  rw [h.held_nil.mp hh] at this
  exact this.symm

theorem prepareProgram_sound (h : k.Sound) (c : VulkanCalls)
    (hq : k.held = [] ∨ k.program = some key) :
    (k.prepareProgram key c).2.Sound ∧ (k.prepareProgram key c).2.held = k.held ∧
      (InLine k.machine → InLine (k.prepareProgram key c).2.machine) := by
  obtain ⟨hf,hret,hout,hbegun⟩ := h.found c
  have hheld : { k with machine := k.found c }.held = k.held := by rw [held,held,hret]
  -- nothing is in flight, or it is the program that there is
  have hidle : (k.found c).inflight = 0 ∨ (k.found c).changes k.shape key = false := by
    obtain hh | hk := hq
    · exact .inl (hf.inflight_of_held (hheld.trans hh))
    · refine .inr ?_
      obtain ⟨-,hp⟩ := hf.program key hk
      by_cases hz : k.shape.programConstants = 0
      · simp [Machine.changes,hz]
      · obtain ⟨h₁,h₂⟩ := hp hz
        simp only at h₁ h₂
        simp [Machine.changes,h₁,h₂]
  obtain ⟨hs,hp⟩ := prepareProgram_programs hf.retiring hidle c.program
  have hok : (k.prepareProgram key c).1 =
      ((k.found c).prepareProgram k.shape key c.program).1 := by
    simp only [prepareProgram,hs,Option.isSome_some,Bool.true_and]
  have he : (k.prepareProgram key c).2.machine =
      ((k.found c).prepareProgram k.shape key c.program).2 := by
    simp only [prepareProgram,attempts,hs,Option.getD_some]
  have hprogram : (k.prepareProgram key c).2.program =
      if ((k.found c).prepareProgram k.shape key c.program).1 then some key else k.program := by
    rw [← hok]
    rfl
  obtain ⟨hspaced,hseen⟩ := hf.next
    ⟨hs,trivial,fun hg => seenOff_of_givenUp (fun _ => rfl) hg⟩
    ⟨[],by rw [hp.returned,List.append_nil]⟩ fun _ hg => hp.givenUp.trans hg
  refine ⟨⟨he ▸ hspaced,he ▸ hseen,he ▸ hp.retiring,?_,fun key' hk => ?_⟩,?_,fun hl => ?_⟩
  · rw [he,hp.launched]
    exact hf.sent
  · rw [he]
    rw [hprogram] at hk
    cases hb : ((k.found c).prepareProgram k.shape key c.program).1 with
    | true =>
      rw [hb] at hk
      cases hk
      exact hp.given hb
    | false =>
      rw [hb] at hk
      obtain ⟨h₁,h₂,h₃⟩ := hp.refused hb
      rw [h₁,h₂,h₃]
      exact hf.program key' hk
  · rw [held,he,hp.returned,hret]
    rfl
  · rw [he]
    intro i l hi
    rw [hp.outstanding,hout] at hi
    rw [hp.outstanding,hp.begun,hout,hbegun]
    exact hl i l hi

theorem dispatch_sound (h : k.Sound) (c : VulkanCalls) (hl : InLine k.machine)
    (hprogram : k.program = some x.programKey) :
    (k.dispatch x c).2.Sound ∧
      if (k.dispatch x c).1 = true then
        (k.dispatch x c).2.held = k.held ++ [x] ∧ InLine (k.dispatch x c).2.machine
      else (k.dispatch x c).2.held = k.held := by
  obtain ⟨hf,hret,hout,hbegun⟩ := h.found c
  have hline : InLine (k.found c) := by
    intro i l hi
    rw [hout] at hi ⊢
    rw [hbegun]
    exact hl i l hi
  have hstep : Vulkan.step k.shape (k.found c) (.dispatch x.start.toNat x.count c.dispatch) =
      some ((k.found c).dispatch k.shape x.start.toNat x.count c.dispatch).2 := by
    simp [Vulkan.step,waits]
  have hsame := dispatch_undisturbed k.shape (k.found c) x.start.toNat x.count c.dispatch
  have hlaunched := dispatch_launched k.shape (k.found c) x.start.toNat x.count c.dispatch
  have hcases := hline.dispatch hf.inStep x.start.toNat x.count c.dispatch
  obtain ⟨hspaced,hseen⟩ := hf.next
    ⟨hstep,hline.spaced hf.inStep _ _ _,fun _ _ hp => by cases hp⟩
    ⟨[],by rw [hsame.returned,List.append_nil]⟩ fun _ => hsame.givenUp
  have hprepared : (k.found c).prepared = x.programKey := (hf.program _ hprogram).1
  have hsent : ((k.dispatch x c).2.machine.launched).map ringAsked =
      (k.dispatch x c).2.sent.map Launch.asked := by
    have := hf.sent
    simp only [dispatch,hlaunched,List.map_append]
    rw [this]
    cases ((k.found c).dispatch k.shape x.start.toNat x.count c.dispatch).1
    · simp
    · simp [ringAsked,Launch.asked,Machine.recorded,hprepared]
  have hlen : k.machine.returned.length ≤ k.sent.length := by
    have := h.inStep.returned
    have hlength := congrArg List.length h.sent
    simp only [List.length_map] at hlength
    omega
  refine ⟨⟨hspaced,hseen,hsame.retiring.trans hf.retiring,hsent,fun key hk => ?_⟩,?_⟩
  · have := hf.program key hk
    simp only [dispatch,hsame.prepared,hsame.programReady,hsame.programKey]
    exact this
  · simp only [dispatch,held,hsame.returned,hret]
    cases hb : ((k.found c).dispatch k.shape x.start.toNat x.count c.dispatch).1 with
    | false => simp
    | true =>
      rw [hb,if_pos rfl] at hcases
      simp only [if_true]
      exact ⟨List.drop_append_of_le_length hlen,hcases.2⟩

theorem collect_sound (h : k.Sound) (max : Nat) (c : VulkanCalls) {rest : List Launch}
    (hh : k.held = x :: rest) :
    (k.collect max c).2.Sound ∧ (k.collect max c).2.held = rest ∧
      (InLine k.machine → InLine (k.collect max c).2.machine) ∧
      ∀ found ∈ (k.collect max c).1, (k.collect max c).2.Wrote max x found := by
  obtain ⟨hf,hret,hout,hbegun⟩ := h.found c
  have hheld : { k with machine := k.found c }.held = k.held := by rw [held,held,hret]
  have hlen := hf.held_length
  rw [hheld,hh,List.length_cons] at hlen
  have hinflight : (k.found c).inflight = rest.length+1 := hf.inStep.inflight.symm.trans hlen.symm
  have hi : (k.found c).inflight ≠ 0 := by omega
  obtain ⟨r,hc,hmax⟩ := collect_collects (k := k.shape) hi hf.retiring max c.collect
  have hstep : Vulkan.step k.shape (k.found c) (.collect max c.collect) =
      some ((k.found c).collect k.shape max c.collect) := by
    simp [Vulkan.step,waits]
  have hr : r ∈ ((k.found c).collect k.shape max c.collect).returned := by
    rw [hc.returned]
    simp
  have hkept : (k.found c).retiring = none := hf.retiring
  obtain ⟨hspaced,hseen⟩ := hf.next
    ⟨hstep,trivial,fun _ p hp => by simp [letsGo,hkept] at hp⟩
    ⟨[r],hc.returned⟩ fun hu hg => hc.givenUp (hu r hr) hg
  have hanswer : (k.collect max c).1 = r.answer := by
    simp only [collect,hi,if_false,hc.returned,List.getLast?_concat,Option.bind_some]
  have hsound : (k.collect max c).2.Sound := by
    refine ⟨hspaced,hseen,hc.retiring,?_,fun key hk => ?_⟩
    · simp only [collect,hc.launched]
      exact hf.sent
    · have := hf.program key hk
      simp only [collect,hc.prepared,hc.programReady,hc.programKey]
      exact this
  refine ⟨hsound,?_,fun hl => ?_,fun found hfound => ?_⟩
  · simp only [collect,held,hc.returned,hret,List.length_append,List.length_singleton]
    rw [← List.tail_drop,← held,hh,List.tail_cons]
  · refine (InLine.collect (fun i l hi => ?_) hc hf.inStep hi).2
    rw [hout] at hi ⊢
    rw [hbegun]
    exact hl i l hi
  · -- the oldest that was held is the one that is returned
    have hsent : k.sent[(k.found c).returned.length]? = some x := by
      have := congrArg (·[0]?) hh
      rw [hret]
      simpa [held] using this
    have hlast : ((k.found c).collect k.shape max c.collect).returned[
        (k.found c).returned.length]? = some r := by
      rw [hc.returned,List.getElem?_concat_length]
    exact hsound.wrote hsent hlast hmax (by rw [← hanswer]; exact hfound)

end VulkanKernel

open VulkanKernel in
def vulkanContract : vulkan.Contract where
  Sound := Sound
  built k := (k.algo,k.size)
  held := held
  clear k := InLine k.machine
  state k := k.state
  program k := k.program
  Came k max x answer := Sound k ∧ ∀ found ∈ answer, k.Wrote max x found
  create_sound := by
    intro a size c k h
    obtain ⟨-,h⟩ := Option.ite_none_right_eq_some.mp h
    cases h
    exact ⟨⟨.start,fun _ => ⟨rfl,.start⟩,rfl,rfl,nofun⟩,rfl,rfl⟩
  depth_pos := fun {k} _ => k.shape.depth_pos
  clear_empty h hh := inLine_empty (h.held_nil.mp hh)
  prepareState_sound h _ := prepareState_sound h _ _
  prepareState_frame _ _ _ := ⟨rfl,rfl,rfl⟩
  prepareState_key _ _ _ := rfl
  prepareProgram_sound h hq := prepareProgram_sound h _ hq
  prepareProgram_frame _ _ _ := ⟨rfl,rfl,rfl⟩
  prepareProgram_key _ _ _ := rfl
  dispatch_sound h hl _ _ _ hp := dispatch_sound h _ hl hp
  dispatch_frame _ _ _ := ⟨rfl,rfl,rfl,rfl⟩
  collect_sound {k max c x rest} h hh := by
    obtain ⟨hs,hheld,hline,hcame⟩ := collect_sound h max c hh
    exact ⟨hs,hheld,hline,hs,hcame⟩
  collect_frame _ _ _ := ⟨rfl,rfl,rfl,rfl⟩

/-- In every state of every run of a worker on a Vulkan kernel, whatever fails: every dispatch
was made with its slot to be had, so that everything that was collected is the answer to its own
dispatch; no pipeline is being kept, and as long as the device has not failed none went under work
that may still be running; and every share was read out of the words that the device of a kernel of this
worker's wrote for the launch that it is a share of. -/
theorem worker_on_vulkan {site : Site} {optAlgo : CStr} {m m₀ : Miner vulkan}
    (h₀ : opened vulkan site optAlgo = some m₀) (h : Reach (step site) free m₀ m) :
    (∀ k : VulkanKernel, m.line.kernel = some k →
      Reach (Vulkan.step k.shape) (Spaced k.shape) (Vulkan.start k.shape) k.machine ∧
      Faithful k.shape k.machine ∧
      (∀ start count c i, handsOut k.shape k.machine (.dispatch start count c) = some i →
        ¬Uncollected k.shape k.machine i) ∧
      k.machine.retiring = none ∧
      (Unfailed k.machine → (∀ d ∈ k.machine.destroyed, d.under = []) ∧
        ∀ l ∈ k.machine.launched, l.Ran k.shape)) ∧
    ∀ s ∈ m.submitted, ∃ x a found, ∃ k ∈ m.line.served, (x,some found) ∈ m.line.retired ∧
      Reach (Vulkan.step k.shape) (Spaced k.shape) (Vulkan.start k.shape) k.machine ∧
      VulkanKernel.Wrote k kMaxCandidates x found ∧ a ∈ found ∧ s = x.share a ∧
      s.hash = x.algo.hash x.size s.work.data s.work.nonce ∧
      Seals.fulltest s.hash s.work.target = true := by
  have hr := ready_reach vulkanContract h₀ h
  refine ⟨fun k hk => ?_,fun s hs => ?_⟩
  · have hs : VulkanKernel.Sound k := (hr.inHand.line.serves k hk).sound
    have hl : InLine k.machine := hr.opened.clear k hk
    obtain ⟨hfaithful,hfree⟩ := dispatches_faithful k.shape hs.spaced
    refine ⟨hs.spaced,hfaithful,fun start count c i hi => ?_,hs.retiring,fun hu => ?_⟩
    · exact (hfree _ i hi).mp (hl.spaced hs.inStep start count c)
    · obtain ⟨hunder,-,hran,-⟩ := pipelines_outlive k.shape (hs.seenOff hu).2
      exact ⟨hunder,hran⟩
  · obtain ⟨x,found,a,hx,⟨k,hk,hsound,hcame⟩,ha,he,hhash,hmeets⟩ := hr.inHand.share_came hs
    exact ⟨x,a,found,k,hk,hx,VulkanKernel.Sound.spaced hsound,hcame found rfl,ha,he,hhash,hmeets⟩

/-- A kernel of two slots whose device is done with the first by the time that it is asked for, with
one candidate. -/
def plainVulkan : VulkanCalls where
  shape := ⟨2,Nat.two_pos,false,0,0,4,4096⟩
  created := true
  finishes := [(0,[1,0,0,126001,0] ++ List.replicate 7 0 ++ [126001])]
  ensured := true
  program := ⟨true,true,0⟩
  dispatch := ⟨true,0,0,false,true,true,true,true,true,true⟩
  collect := ⟨false,false,true⟩
  batch := 16

/-- The state behind two passes: a share is sent, and the second slot's dispatch is out. -/
theorem plain_vulkan : ∃ m : Miner vulkan, Reach (step plainSite) free (plainMiner vulkan) m ∧
    m.submitted.length = 1 ∧ m.line.kernel.any fun k : VulkanKernel => k.machine.inflight == 1 :=
  reach_of_any (step plainSite) free (plainMiner vulkan)
    [.pass (plainCalls plainVulkan 1),.pass (plainCalls plainVulkan 1)]
    (fun m => m.submitted.length = 1 ∧ m.line.kernel.any fun k : VulkanKernel =>
      k.machine.inflight == 1) (by decide)

theorem pipeline_of_one_job_run : ∃ m : Miner vulkan, m.submitted.length = 1 ∧
    (∃ x, m.line.outstanding = [x] ∧ x.Under m) ∧
    m.line.launched = m.line.retired.map Prod.fst ++ m.line.outstanding ∧
    m.line.abandoned = [] := by
  obtain ⟨m,hr,hs,hk⟩ := plain_vulkan
  obtain ⟨k,hm,hi⟩ := (Option.any_eq_true _ _).mp hk
  obtain ⟨hfifo,-,hunder,hkernel,-,habandoned,-⟩ := pipeline_of_one_job vulkanContract rfl hr
  obtain ⟨hsound,-,-,hheld,-⟩ := hkernel k hm
  have hone : m.line.outstanding.length = 1 := by
    have hi : k.machine.inflight = 1 := by simpa using hi
    rw [← hheld,← hi]
    exact (VulkanKernel.Sound.held_length hsound).trans (VulkanKernel.Sound.inStep hsound).inflight
  obtain ⟨x,hx⟩ := List.length_eq_one_iff.mp hone
  exact ⟨m,hs,⟨x,hx,hunder x (by simp [hx])⟩,hfifo,habandoned⟩

theorem worker_on_vulkan_run : ∃ m : Miner vulkan, m.submitted.length = 1 ∧
    (∃ k : VulkanKernel, m.line.kernel = some k ∧ k.machine.inflight = 1 ∧
      Faithful k.shape k.machine) ∧
    ∀ s ∈ m.submitted, Seals.fulltest s.hash s.work.target = true := by
  obtain ⟨m,hr,hs,hk⟩ := plain_vulkan
  obtain ⟨hkernel,hshares⟩ := worker_on_vulkan rfl hr
  obtain ⟨k,hm,hi⟩ := (Option.any_eq_true _ _).mp hk
  refine ⟨m,hs,⟨k,hm,by simpa using hi,(hkernel k hm).2.1⟩,fun s hm => ?_⟩
  obtain ⟨-,-,-,-,-,-,-,-,-,-,-,hmeets⟩ := hshares s hm
  exact hmeets

end VkMiner.Scheduler.Mining
