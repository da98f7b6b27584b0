import VkMiner.Vulkan.Pipelines
set_option autoImplicit false

/-! A kernel as it is used by a caller that collects everything after a dispatch that failed, and
before it asks for another program. -/

namespace VkMiner.Vulkan
open Runs

variable {k : Shape} {m m' : Machine} {l : Launch} {start count key i : Nat} {max : Int}

def InLine (m : Machine) : Prop :=
  ∀ i l, m.outstanding[i]? = some l → l.ticket+m.outstanding.length = m.begun+i

theorem InLine.spaced (h : InLine m) (hs : InStep k m) (start count : Nat) (c : DispatchCalls) :
    Spaced k m (.dispatch start count c) := by
  intro hr l hl
  have hlen := hs.inflight
  have hin := h 0 l (by rw [← List.head?_eq_getElem?]; exact hl)
  have hlt : m.inflight < k.depth := by
    simp only [Machine.ready,Bool.and_eq_true,decide_eq_true_eq] at hr
    exact hr.1.1.2
  omega

theorem inLine_empty (h : m.outstanding = []) : InLine m := by
  intro i l hl
  rw [h] at hl
  cases hl

structure Undisturbed (m m' : Machine) : Prop where
  returned : m'.returned = m.returned
  retiring : m'.retiring = m.retiring
  prepared : m'.prepared = m.prepared
  programKey : m'.programKey = m.programKey
  programReady : m'.programReady = m.programReady
  givenUp : m.givenUp = [] → m'.givenUp = []

theorem Undisturbed.refl (m : Machine) : Undisturbed m m := ⟨rfl,rfl,rfl,rfl,rfl,id⟩

theorem dispatch_undisturbed (k : Shape) (m : Machine) (start count : Nat) (c : DispatchCalls) :
    Undisturbed m (m.dispatch k start count c).2 := by
  obtain he | ⟨-,⟨s,g,hs,he⟩ | ⟨s,-,-,-,-,he⟩⟩ := m.dispatch_cases k start count c
  · rw [he]
    exact .refl m
  · rw [he]
    refine ⟨rfl,rfl,rfl,rfl,rfl,fun hg => ?_⟩
    obtain ⟨-,-,rfl | ⟨-,rfl⟩⟩ | ⟨-,-,rfl⟩ := hs.cases
    · exact hg
    · simp [Machine.took,hg]
    · simp [Machine.took,hg]
  · rw [he]
    exact ⟨rfl,rfl,rfl,rfl,rfl,fun hg => by simp [Machine.launch,Machine.took,hg]⟩

theorem submit_launched (m : Machine) (l : Launch) (c : DispatchCalls) :
    (m.submit l c).2.launched = m.launched := by
  obtain h | h | h := m.submit_cases l c <;> rw [h] <;> rfl

theorem dispatch_launched (k : Shape) (m : Machine) (start count : Nat) (c : DispatchCalls) :
    (m.dispatch k start count c).2.launched = m.launched ++
      if (m.dispatch k start count c).1 then [m.recorded m.next start count] else [] := by
  obtain ⟨s,g,-,h₂,-⟩ := Machine.begin_cases k m c
  have hb : (m.begin k c).2.launched = m.launched := by rw [h₂]; rfl
  simp only [Machine.dispatch]
  split
  · rcases hbegin : m.begin k c with ⟨_ | i,n⟩
    · rw [hbegin] at hb
      simpa using hb
    · rw [hbegin] at hb
      simp only
      split
      · simpa using hb
      · have hsub := submit_launched n (m.recorded m.next start count) c
        rcases hn : n.submit (m.recorded m.next start count) c with ⟨_ | _,n'⟩
        · rw [hn] at hsub
          simpa using hsub.trans hb
        · rw [hn] at hsub
          simpa using hsub.trans hb
  · simp

theorem InLine.dispatch (h : InLine m) (hs : InStep k m) (start count : Nat) (c : DispatchCalls) :
    if (m.dispatch k start count c).1 = true then
      (m.dispatch k start count c).2.outstanding =
          m.outstanding ++ [m.recorded m.next start count] ∧
        InLine (m.dispatch k start count c).2
    else (m.dispatch k start count c).2.outstanding = m.outstanding := by
  have hl := dispatch_launched k m start count c
  have hret := (dispatch_undisturbed k m start count c).returned
  have ho : (m.dispatch k start count c).2.outstanding = m.outstanding ++
      if (m.dispatch k start count c).1 then [m.recorded m.next start count] else [] := by
    simp only [Machine.outstanding,hl,hret]
    exact List.drop_append_of_le_length hs.returned
  split
  · rename_i hok
    simp only [hok,if_true] at hl ho
    refine ⟨ho,?_⟩
    -- the ring has moved on by the one slot that the new dispatch has
    have hbegun : (m.dispatch k start count c).2.begun = m.begun+1 := by
      obtain he | ⟨-,⟨s,g,-,he⟩ | ⟨s,-,-,-,-,he⟩⟩ := m.dispatch_cases k start count c
      · rw [he] at hl
        exact absurd (congrArg List.length hl) (by simp)
      · rw [he] at hl
        exact absurd (congrArg List.length hl) (by simp [Machine.took,Machine.setSlot])
      · rw [he]
        rfl
    intro i x hx
    rw [ho] at hx ⊢
    rw [hbegun,List.length_append,List.length_singleton]
    obtain hlt | hge := Nat.lt_or_ge i m.outstanding.length
    · rw [List.getElem?_append_left hlt] at hx
      have := h i x hx
      omega
    · obtain rfl : i = m.outstanding.length := by
        have := (List.getElem?_eq_some_iff.mp hx).1
        rw [List.length_append,List.length_singleton] at this
        omega
      rw [List.getElem?_concat_length] at hx
      cases hx
      simp only [Machine.recorded]
      omega
  · rename_i hok
    simpa [hok] using ho

/-- What a collect leaves of what its caller goes by, where no pipeline is being kept. -/
structure Collects (m m' : Machine) (r : Return) : Prop where
  returned : m'.returned = m.returned ++ [r]
  launched : m'.launched = m.launched
  begun : m'.begun = m.begun
  retiring : m'.retiring = none
  prepared : m'.prepared = m.prepared
  programKey : m'.programKey = m.programKey
  programReady : m'.programReady = m.programReady
  givenUp : r.answer ≠ none → m.givenUp = [] → m'.givenUp = []

theorem collect_collects (hi : m.inflight ≠ 0) (hr : m.retiring = none) (max : Int)
    (c : CollectCalls) : ∃ r, Collects m (m.collect k max c) r ∧ r.max = max := by
  obtain ⟨r,s,g,he,-,hg⟩ := collect_cases (k := k) hi max c
  have hretiring : (m.take k).retiring = none := by
    simp [Machine.take,hr]
  refine ⟨r,?_,?_⟩
  · rw [he]
    refine ⟨rfl,rfl,rfl,hretiring,rfl,rfl,rfl,fun ha hn => ?_⟩
    obtain ⟨-,-,hnone⟩ | ⟨rfl,-⟩ := hg
    · exact absurd hnone ha
    · exact hn
  · have hlast : (m.collect k max c).returned = m.returned ++ [r] := by rw [he]; rfl
    simp only [Machine.collect,hi,if_false] at hlast
    obtain ha | ⟨s,a,-,-,ha⟩ := (m.take k).answer_cases (m.queue m.head) max c
    all_goals
      rw [ha] at hlast
      have hto : (m.take k).returned = m.returned := by rw [m.take_eq k]
      simp only [Machine.setSlot,hto,List.append_cancel_left_eq,List.cons.injEq,and_true] at hlast
      rw [← hlast]

theorem InLine.collect (h : InLine m) {r : Return} (hc : Collects m m' r) (hs : InStep k m)
    (hi : m.inflight ≠ 0) : m'.outstanding = m.outstanding.tail ∧ InLine m' := by
  have ho : m'.outstanding = m.outstanding.tail := by
    simp [Machine.outstanding,hc.returned,hc.launched]
  refine ⟨ho,fun i x hx => ?_⟩
  rw [ho] at hx ⊢
  have hlen := hs.inflight
  have := h (i+1) x (by simpa using hx)
  rw [hc.begun,List.length_tail]
  omega

/-- What asking for a program leaves, where the one before it need not be kept. -/
structure Programs (k : Shape) (key : Nat) (m m' : Machine) (ok : Bool) : Prop where
  outstanding : m'.outstanding = m.outstanding
  launched : m'.launched = m.launched
  returned : m'.returned = m.returned
  begun : m'.begun = m.begun
  givenUp : m'.givenUp = m.givenUp
  retiring : m'.retiring = none
  given : ok = true → m'.prepared = key ∧
    (k.programConstants ≠ 0 → m'.programReady = true ∧ m'.programKey = key)
  refused : ok = false → m'.prepared = m.prepared ∧ m'.programReady = m.programReady ∧
    m'.programKey = m.programKey

theorem retire_idle (hr : m.retiring = none) (hi : m.inflight = 0) (old : Option Pipeline) :
    ∃ gone, m.retire k old = { m with destroyed := gone } := by
  cases old with
  | none => exact ⟨m.destroyed,rfl⟩
  | some p =>
    obtain ⟨-,hn,-⟩ | ⟨-,-,he⟩ | ⟨q,hq,-⟩ := m.retire_cases k p
    · exact absurd hi hn
    · exact ⟨_,he⟩
    · cases hr.symm.trans hq

theorem prepareProgram_programs (hr : m.retiring = none)
    (hq : m.inflight = 0 ∨ m.changes k key = false) (c : ProgramCalls) :
    step k m (.prepareProgram key c) = some (m.prepareProgram k key c).2 ∧
      Programs k key m (m.prepareProgram k key c).2 (m.prepareProgram k key c).1 := by
  refine ⟨by simp [step,waits,hr],?_⟩
  cases hc : m.changes k key with
  | false =>
    simp only [Machine.prepareProgram,hc,Bool.not_false,if_true]
    refine ⟨rfl,rfl,rfl,rfl,rfl,hr,fun _ => ⟨rfl,fun hz => ?_⟩,fun h => by cases h⟩
    have hsame : m.programReady = true ∧ key = m.programKey := by
      simpa [Machine.changes,hz] using hc
    exact ⟨hsame.1,hsame.2.symm⟩
  | true =>
    have hi : m.inflight = 0 := hq.resolve_right (by simp [hc])
    cases ho : m.obtains key c with
    | false =>
      simp only [Machine.prepareProgram,hc,ho,Bool.not_true,Bool.not_false,if_true,if_false,
        Bool.false_eq_true]
      exact ⟨rfl,rfl,rfl,rfl,rfl,hr,fun h => (by cases h),fun _ => ⟨rfl,rfl,rfl⟩⟩
    | true =>
      obtain ⟨gone,he⟩ := retire_idle (k := k) hr hi m.pipeline
      simp only [Machine.prepareProgram,hc,ho,Bool.not_true,Bool.false_eq_true,if_false,he]
      exact ⟨rfl,rfl,rfl,rfl,rfl,hr,fun _ => ⟨rfl,fun _ => ⟨rfl,rfl⟩⟩,fun h => by cases h⟩

end VkMiner.Vulkan
