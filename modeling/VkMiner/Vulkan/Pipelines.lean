import VkMiner.Vulkan.Outstanding
set_option autoImplicit false

/-! Which pipeline is let go, and whether anything recorded against it can still be running. -/

namespace VkMiner.Vulkan
open Runs

variable {k : Shape} {m m' : Machine} {e : Event} {l : Launch} {p : Pipeline} {i : Nat}

/-- Work recorded against `p` in the slot, whose fence nobody has seen. -/
def Machine.Unfinished (m : Machine) (i : Nat) (p : Pipeline) : Prop :=
  (m.slots i).unseen = true ∧ (m.slots i).job.any (fun l => l.pipeline == some p) = true

instance (m : Machine) (i : Nat) (p : Pipeline) : Decidable (m.Unfinished i p) :=
  inferInstanceAs (Decidable (_ ∧ _))

/-- The pipeline that a step lets go without waiting the device out. -/
def letsGo (k : Shape) (m : Machine) : Event → Option Pipeline
  | .collect _ _ => if m.inflight = 1 then m.retiring else none
  | .prepareProgram key c =>
    if m.changes k key && m.obtains key c && m.inflight == 0 && m.retiring.isNone then m.pipeline
    else none
  | _ => none

def lastSlots (m : Machine) : Event → List Nat
  | .collect _ _ => (m.queue m.head).slot :: m.givenUp
  | _ => m.givenUp

/-- What is let go is neither what the dispatch being collected was recorded against, nor what
one was recorded against that an earlier collect gave up on. -/
def SeenOff (k : Shape) (m : Machine) (e : Event) : Prop :=
  ∀ p ∈ letsGo k m e, ∀ i ∈ lastSlots m e, ¬m.Unfinished i p

instance (k : Shape) (m : Machine) (e : Event) : Decidable (SeenOff k m e) :=
  inferInstanceAs (Decidable (∀ p ∈ letsGo k m e, ∀ i ∈ lastSlots m e, ¬m.Unfinished i p))

/-- The dispatch ran the pipeline of the program it was prepared for, where there is one. -/
def Launch.Ran (k : Shape) (l : Launch) : Prop :=
  ∃ p, l.pipeline = some p ∧ (k.programConstants ≠ 0 → p.program = l.key)

namespace Machine

theorem mem_under {k : Shape} : i ∈ m.under k p ↔ i < k.depth ∧ m.Unfinished i p := by
  simp [under,Unfinished]

theorem under_eq_nil (h : ∀ i, ¬m.Unfinished i p) : m.under k p = [] :=
  List.eq_nil_iff_forall_not_mem.mpr fun i hi => h i (mem_under.mp hi).2

theorem under_waitIdle {n : Machine} (h : n.slots = m.waitIdle.slots) : n.under k p = [] := by
  refine under_eq_nil fun i hu => ?_
  rw [Unfinished,h] at hu
  exact Bool.false_ne_true hu.1

theorem take_cases (k : Shape) (m : Machine) :
    ((m.take k).retiring = m.retiring ∧ (m.take k).destroyed = m.destroyed ∧
        (m.inflight = 1 → m.retiring = none)) ∨
      ∃ p, m.retiring = some p ∧ m.inflight - 1 = 0 ∧ (m.take k).retiring = none ∧
        (m.take k).destroyed = m.destroyed ++ [⟨p,m.under k p⟩] := by
  simp only [take]
  cases hr : m.retiring with
  | none => exact .inl ⟨rfl,rfl,fun _ => rfl⟩
  | some p =>
    simp only
    split
    · rename_i hi
      exact .inr ⟨p,rfl,hi,rfl,rfl⟩
    · rename_i hi
      exact .inl ⟨rfl,rfl,fun h => absurd (by rw [h]) hi⟩

theorem retire_cases (k : Shape) (m : Machine) (p : Pipeline) :
    (m.retiring = none ∧ m.inflight ≠ 0 ∧ m.retire k (some p) = { m with retiring := some p }) ∨
      (m.retiring = none ∧ m.inflight = 0 ∧
        m.retire k (some p) = { m with destroyed := m.destroyed ++ [⟨p,m.under k p⟩] }) ∨
      ∃ q, m.retiring = some q ∧
        (m.inflight ≠ 0 ∧ m.retire k (some p) =
            { m.waitIdle with
              retiring := some p
              destroyed := m.destroyed ++ [⟨q,[]⟩] } ∨
          m.inflight = 0 ∧ m.retire k (some p) =
            { m.waitIdle with
              retiring := none
              destroyed := m.destroyed ++ [⟨q,[]⟩] ++ [⟨p,[]⟩] }) := by
  cases hr : m.retiring with
  | none =>
    by_cases hi : m.inflight = 0
    · exact .inr (.inl ⟨rfl,hi,by simp [retire,hr,hi,destroy]⟩)
    · exact .inl ⟨rfl,hi,by simp [retire,hr,hi]⟩
  | some q =>
    refine .inr (.inr ⟨q,rfl,?_⟩)
    have hu : ∀ (n : Machine) p, n.slots = m.waitIdle.slots → n.under k p = [] :=
      fun n p h => under_waitIdle h
    by_cases hi : m.inflight = 0
    · exact .inr ⟨hi,by simp [retire,hr,destroy,hu,waitIdle,hi]⟩
    · exact .inl ⟨hi,by simp [retire,hr,destroy,hu,waitIdle,hi]⟩

end Machine

structure Tended (k : Shape) (m : Machine) : Prop where
  next : m.next < k.depth
  head : m.head < k.depth
  known : ∀ i, (m.slots i).unseen = true →
    (m.slots i).pending = true ∧ i < k.depth ∧ (Uncollected k m i ∨ i ∈ m.givenUp)
  finished : ∀ d ∈ m.destroyed, d.under = []
  current : ∀ p ∈ m.pipeline, p.id < m.built
  ids : (∀ q ∈ m.retiring, q.id < m.built) ∧ ∀ d ∈ m.destroyed, d.pipeline.id < m.built
  older : ∀ p ∈ m.pipeline,
    (∀ q ∈ m.retiring, q.id < p.id) ∧ ∀ d ∈ m.destroyed, d.pipeline.id < p.id
  whole : k.programConstants = 0 → m.pipeline.isSome = true
  program : m.programReady = true → k.programConstants ≠ 0 ∧
    ∃ p, m.pipeline = some p ∧ p.program = m.programKey ∧ m.prepared = m.programKey
  ran : ∀ l ∈ m.launched, l.Ran k

theorem tended_start (k : Shape) : Tended k (start k) where
  next := k.depth_pos
  head := k.depth_pos
  known := by simp [start,Slot.fresh]
  finished := by simp [start]
  current := by
    simp only [start]
    split <;> simp
  ids := by simp [start]
  older := by simp [start]
  whole := fun h => by simp [start,h]
  program := nofun
  ran := by simp [start]

theorem Tended.took {s : Slot} {g : List Nat} (h : Tended k m) (hs : m.Stopped s g) :
    Tended k (m.took k s g) := by
  refine ⟨Nat.mod_lt _ k.depth_pos,h.head,?_,h.finished,h.current,h.ids,h.older,h.whole,
    h.program,h.ran⟩
  intro i hi
  by_cases he : i = m.next
  · subst he
    simp only [Machine.took,Machine.setSlot,Function.update_self] at hi ⊢
    obtain ⟨hu,hp,rfl | ⟨hn,-⟩⟩ | ⟨hu,-,-⟩ := hs.cases
    · have := h.known m.next (hu ▸ hi)
      exact ⟨hp ▸ this.1,this.2⟩
    · have := (h.known m.next (hu ▸ hi)).1
      rw [← hp,hn] at this
      cases this
    · cases hu.symm.trans hi
  · simp only [Machine.took,Machine.setSlot,Function.update_of_ne he] at hi ⊢
    obtain ⟨hp,hd,hu | hg⟩ := h.known i hi
    · exact ⟨hp,hd,.inl hu⟩
    · refine ⟨hp,hd,.inr ?_⟩
      have hf : i ∈ m.givenUp.filter (· ≠ m.next) := List.mem_filter.mpr ⟨hg,by simpa using he⟩
      obtain ⟨-,-,rfl | ⟨-,rfl⟩⟩ | ⟨-,-,rfl⟩ := hs.cases
      · exact hg
      · exact hf
      · exact hf

theorem Tended.launch {s : Slot} (h : Tended k m) (hi : m.inflight < k.depth)
    (hsl : l.slot = m.next) (hp : s.pending = true) (hr : l.Ran k) :
    Tended k (m.launch k s (m.givenUp.filter (· ≠ m.next)) l) := by
  refine ⟨Nat.mod_lt _ k.depth_pos,h.head,?_,h.finished,h.current,h.ids,h.older,h.whole,
    h.program,?_⟩
  · intro i hu
    by_cases he : i = m.next
    · subst he
      simp only [Machine.launch,Machine.took,Machine.setSlot,Function.update_self]
      refine ⟨hp,h.next,.inl ⟨m.inflight,Nat.lt_succ_self _,?_⟩⟩
      simp only [Function.update_self,hsl]
    · simp only [Machine.launch,Machine.took,Machine.setSlot,Function.update_of_ne he] at hu ⊢
      obtain ⟨hp',hd,⟨j,hj,hq⟩ | hg⟩ := h.known i hu
      · refine ⟨hp',hd,.inl ⟨j,Nat.lt_succ_of_lt hj,?_⟩⟩
        have hne : (m.head + j) % k.depth ≠ (m.head + m.inflight) % k.depth :=
          (mod_ne_of_lt (by omega) (by omega)).symm
        simpa only [Function.update_of_ne hne] using hq
      · exact ⟨hp',hd,.inr (List.mem_filter.mpr ⟨hg,by simpa using he⟩)⟩
  · intro l' hl
    rcases List.mem_append.mp hl with hl | hl
    · exact h.ran l' hl
    · rw [List.mem_singleton.mp hl]
      exact hr

theorem Tended.recorded_ran (h : Tended k m) {start count : Nat} {c : DispatchCalls}
    (hr : m.ready k count c = true) : (m.recorded m.next start count).Ran k := by
  simp only [Machine.ready,Bool.and_eq_true,Bool.or_eq_true,beq_iff_eq] at hr
  obtain hz | hp := hr.1.1.1.1.2
  · obtain ⟨p,hp⟩ := Option.isSome_iff_exists.mp (h.whole hz)
    exact ⟨p,hp,fun hn => absurd hz hn⟩
  · obtain ⟨-,p,hp,hk,hpre⟩ := h.program hp
    exact ⟨p,hp,fun _ => hk.trans hpre.symm⟩

theorem Tended.dispatch (h : Tended k m) (start count : Nat) (c : DispatchCalls) :
    Tended k (m.dispatch k start count c).2 := by
  obtain he | ⟨hr,⟨s,g,hs,he⟩ | ⟨s,hp,-,-,-,he⟩⟩ := m.dispatch_cases k start count c
  · rwa [he]
  · rw [he]
    exact h.took hs
  · rw [he]
    have hi : m.inflight < k.depth := by
      simp only [Machine.ready,Bool.and_eq_true,decide_eq_true_eq] at hr
      exact hr.1.1.2
    exact h.launch hi rfl hp (h.recorded_ran hr)

/-- With nothing else in flight, whatever is unseen is being collected or was given up on. -/
theorem Tended.under_nil (h : Tended k m) (hg : ∀ i ∈ m.givenUp, ¬m.Unfinished i p)
    (hq : ∀ j < m.inflight, ¬m.Unfinished (m.queue ((m.head + j) % k.depth)).slot p) :
    m.under k p = [] := by
  refine Machine.under_eq_nil fun i hu => ?_
  obtain ⟨-,-,⟨j,hj,rfl⟩ | hi⟩ := h.known i hu.1
  · exact hq j hj hu
  · exact hg i hi hu

theorem Tended.collect (h : Tended k m) (max : Int) (c : CollectCalls)
    (hs : SeenOff k m (.collect max c)) : Tended k (m.collect k max c) := by
  by_cases hi : m.inflight = 0
  · simpa only [Machine.collect,hi,if_true] using h
  obtain ⟨r,s,g,he,-,ha⟩ := collect_cases (k := k) hi max c
  rw [he]
  have hret : (∀ q ∈ (m.take k).retiring, q ∈ m.retiring) ∧
      ∀ d ∈ (m.take k).destroyed, d ∈ m.destroyed ∨ d.under = [] ∧ d.pipeline ∈ m.retiring := by
    obtain ⟨hr,hd,-⟩ | ⟨p,hp,hz,hr,hd⟩ := m.take_cases k
    · rw [hr,hd]
      exact ⟨fun q hq => hq,fun d hd => .inl hd⟩
    · rw [hr,hd]
      refine ⟨by simp,fun d hd => ?_⟩
      rcases List.mem_append.mp hd with hd | hd
      · exact .inl hd
      · have hone : m.inflight = 1 := by omega
        have hgo : p ∈ letsGo k m (.collect max c) := by
          rw [letsGo,if_pos hone]
          exact hp
        have hall := hs p hgo
        rw [List.mem_singleton.mp hd]
        refine .inr ⟨?_,hp⟩
        refine h.under_nil (fun i hi => hall i (.tail _ hi)) fun j hj => ?_
        obtain rfl : j = 0 := by omega
        rw [Nat.add_zero,Nat.mod_eq_of_lt h.head]
        exact hall _ (.head _)
  refine ⟨h.next,Nat.mod_lt _ k.depth_pos,?_,?_,h.current,⟨?_,?_⟩,?_,h.whole,h.program,h.ran⟩
  · intro i hu
    simp only [Machine.collected] at hu ⊢
    by_cases hsl : i = (m.queue m.head).slot
    · subst hsl
      rw [Function.update_self] at hu ⊢
      obtain ⟨rfl,rfl,-⟩ | ⟨-,⟨hn,rfl⟩ | ⟨-,rfl⟩,-⟩ := ha
      · have := h.known _ hu
        exact ⟨this.1,this.2.1,.inr (List.mem_append_right _ (List.mem_singleton.mpr rfl))⟩
      · cases hn.symm.trans (h.known _ hu).1
      · cases hu
    · rw [Function.update_of_ne hsl] at hu ⊢
      obtain ⟨hp,hd,⟨j,hj,hq⟩ | hg⟩ := h.known i hu
      · refine ⟨hp,hd,.inl ?_⟩
        cases j with
        | zero =>
          rw [Nat.add_zero,Nat.mod_eq_of_lt h.head] at hq
          exact absurd hq.symm hsl
        | succ j =>
          refine ⟨j,?_,?_⟩
          · simp only
            omega
          · simp only
            rwa [Nat.mod_add_mod,Nat.add_assoc,Nat.add_comm 1 j]
      · refine ⟨hp,hd,.inr ?_⟩
        obtain ⟨rfl,-,-⟩ | ⟨rfl,-,-⟩ := ha
        · exact List.mem_append_left _ hg
        · exact hg
  · intro d hd
    obtain hd | ⟨hd,-⟩ := hret.2 d hd
    · exact h.finished d hd
    · exact hd
  · exact fun q hq => h.ids.1 q (hret.1 q hq)
  · intro d hd
    obtain hd | ⟨-,hd⟩ := hret.2 d hd
    · exact h.ids.2 d hd
    · exact h.ids.1 _ hd
  · intro p hp
    refine ⟨fun q hq => (h.older p hp).1 q (hret.1 q hq),fun d hd => ?_⟩
    obtain hd | ⟨-,hd⟩ := hret.2 d hd
    · exact (h.older p hp).2 d hd
    · exact (h.older p hp).1 _ hd

/-- What is left of the invariant while no pipeline is current. -/
structure Between (k : Shape) (m r : Machine) : Prop where
  next : r.next = m.next
  head : r.head = m.head
  launched : r.launched = m.launched
  known : ∀ i, (r.slots i).unseen = true →
    (r.slots i).pending = true ∧ i < k.depth ∧ (Uncollected k r i ∨ i ∈ r.givenUp)
  finished : ∀ d ∈ r.destroyed, d.under = []
  ids : (∀ q ∈ r.retiring, q.id < m.built) ∧ ∀ d ∈ r.destroyed, d.pipeline.id < m.built

theorem Tended.retire (h : Tended k m) (hg : m.retiring = none → m.inflight = 0 →
    ∀ p ∈ m.pipeline, ∀ i ∈ m.givenUp, ¬m.Unfinished i p) :
    Between k m (m.retire k m.pipeline) := by
  cases hp : m.pipeline with
  | none => exact ⟨rfl,rfl,rfl,h.known,h.finished,h.ids⟩
  | some p =>
    have hid := h.current p hp
    have hwait : ∀ i, ((m.waitIdle).slots i).unseen = true → False := fun _ => Bool.false_ne_true
    obtain ⟨hr,-,he⟩ | ⟨hr,hi,he⟩ | ⟨q,hq,⟨-,he⟩ | ⟨-,he⟩⟩ := m.retire_cases k p
    · rw [he]
      exact ⟨rfl,rfl,rfl,h.known,h.finished,fun q hq => by cases hq; exact hid,h.ids.2⟩
    · rw [he]
      have hu : m.under k p = [] :=
        h.under_nil (hg hr hi p hp) fun j hj => by omega
      refine ⟨rfl,rfl,rfl,h.known,fun d hd => ?_,h.ids.1,fun d hd => ?_⟩
      · rcases List.mem_append.mp hd with hd | hd
        · exact h.finished d hd
        · rw [List.mem_singleton.mp hd]
          exact hu
      · rcases List.mem_append.mp hd with hd | hd
        · exact h.ids.2 d hd
        · rw [List.mem_singleton.mp hd]
          exact hid
    · rw [he]
      refine ⟨rfl,rfl,rfl,fun i hi => (hwait i hi).elim,fun d hd => ?_,
        fun q' hq' => by cases hq'; exact hid,fun d hd => ?_⟩
      · rcases List.mem_append.mp hd with hd | hd
        · exact h.finished d hd
        · rw [List.mem_singleton.mp hd]
      · rcases List.mem_append.mp hd with hd | hd
        · exact h.ids.2 d hd
        · rw [List.mem_singleton.mp hd]
          exact h.ids.1 q hq
    · rw [he]
      refine ⟨rfl,rfl,rfl,fun i hi => (hwait i hi).elim,fun d hd => ?_,nofun,fun d hd => ?_⟩
      · simp only [List.mem_append,List.mem_singleton] at hd
        obtain (hd | rfl) | rfl := hd
        · exact h.finished d hd
        · rfl
        · rfl
      · simp only [List.mem_append,List.mem_singleton] at hd
        obtain (hd | rfl) | rfl := hd
        · exact h.ids.2 d hd
        · exact h.ids.1 q hq
        · exact hid

theorem Tended.prepareProgram (h : Tended k m) (key : Nat) (c : ProgramCalls)
    (hs : SeenOff k m (.prepareProgram key c)) : Tended k (m.prepareProgram k key c).2 := by
  simp only [Machine.prepareProgram]
  split
  · rename_i hc
    refine ⟨h.next,h.head,h.known,h.finished,h.current,h.ids,h.older,h.whole,fun hr => ?_,h.ran⟩
    obtain ⟨hz,p,hp,hk,-⟩ := h.program hr
    have hkey : key = m.programKey := by
      simpa [Machine.changes,show m.programReady = true from hr,hz] using hc
    exact ⟨hz,p,hp,hk,hkey⟩
  · rename_i hc
    split
    · exact ⟨h.next,h.head,h.known,h.finished,h.current,h.ids,h.older,h.whole,h.program,h.ran⟩
    · rename_i ho
      have hb := h.retire (k := k) fun hr hi p hp i hi' => by
        refine hs p ?_ i hi'
        simp only [Bool.not_eq_true,Bool.not_eq_false'] at hc ho
        rw [letsGo,hr,hi,hc,ho]
        exact hp
      refine ⟨hb.next ▸ h.next,hb.head ▸ h.head,hb.known,hb.finished,?_,⟨?_,?_⟩,?_,
        fun _ => rfl,fun _ => ⟨?_,_,rfl,rfl,rfl⟩,?_⟩
      · rintro p ⟨⟩
        exact Nat.lt_succ_self _
      · exact fun q hq => Nat.lt_succ_of_lt (hb.ids.1 q hq)
      · exact fun d hd => Nat.lt_succ_of_lt (hb.ids.2 d hd)
      · rintro p ⟨⟩
        exact hb.ids
      · intro hz
        simp [Machine.changes,hz] at hc
      · simp only [hb.launched]
        exact h.ran

theorem Tended.finish {w : List UInt32} (h : Tended k m) (hs : m.finish i w = some m') :
    Tended k m' := by
  simp only [Machine.finish] at hs
  split at hs
  · cases hs
    refine ⟨h.next,h.head,fun j hu => ?_,h.finished,h.current,h.ids,h.older,h.whole,h.program,h.ran⟩
    by_cases he : j = i
    · subst he
      simp only [Machine.setSlot,Function.update_self] at hu ⊢
      exact h.known j hu
    · simp only [Machine.setSlot,Function.update_of_ne he] at hu ⊢
      exact h.known j hu
  · cases hs

theorem Tended.step (h : Tended k m) (ho : SeenOff k m e) (hs : step k m e = some m') :
    Tended k m' := by
  simp only [Vulkan.step] at hs
  split at hs
  · cases hs
  cases e with
  | prepareState ensured =>
    simp only [Option.some.injEq] at hs
    subst hs
    split
    · exact ⟨h.next,h.head,h.known,h.finished,h.current,h.ids,h.older,h.whole,h.program,h.ran⟩
    · exact h
  | prepareProgram key c =>
    cases hs
    exact h.prepareProgram key c ho
  | dispatch start count c =>
    cases hs
    exact h.dispatch start count c
  | collect max c =>
    cases hs
    exact h.collect max c ho
  | finish i w => exact h.finish hs

theorem tended_reach (h : Reach (step k) (SeenOff k) (start k) m) : Tended k m :=
  h.invariant (tended_start k) fun _ _ _ hm ho hs => hm.step ho hs

theorem letsGo_destroyed (hp : letsGo k m e = some p) (hs : step k m e = some m') :
    ⟨p,m.under k p⟩ ∈ m'.destroyed := by
  simp only [Vulkan.step] at hs
  split at hs
  · cases hs
  cases e with
  | collect max c =>
    cases hs
    simp only [letsGo] at hp
    split at hp
    · rename_i hi
      obtain ⟨r,s,g,he,-,-⟩ := collect_cases (k := k) (m := m) (by omega) max c
      rw [he]
      obtain ⟨-,-,hn⟩ | ⟨q,hq,-,-,hd⟩ := m.take_cases k
      · cases (hn hi).symm.trans hp
      · cases hq.symm.trans hp
        simp only [Machine.collected,hd]
        exact List.mem_append_right _ (List.mem_singleton.mpr rfl)
    · cases hp
  | prepareProgram key c =>
    cases hs
    simp only [letsGo] at hp
    split at hp
    · rename_i hc
      simp only [Bool.and_eq_true,beq_iff_eq,Option.isNone_iff_eq_none] at hc
      obtain ⟨⟨⟨hch,hob⟩,hi⟩,hr⟩ := hc
      simp only [Machine.prepareProgram,hch,hob,Bool.not_true,if_false,Bool.false_eq_true,hp]
      obtain ⟨-,hn,-⟩ | ⟨-,-,he⟩ | ⟨q,hq,-⟩ := m.retire_cases k p
      · exact absurd hi hn
      · rw [he]
        exact List.mem_append_right _ (List.mem_singleton.mpr rfl)
      · cases hq.symm.trans hr
    · cases hp
  | prepareState | dispatch | finish => cases hp

/-- Where what is let go was seen off, no pipeline goes under work that may still be running,
every dispatch ran the program it was prepared for, and the next step keeps to that exactly
where it sees off too. -/
theorem pipelines_outlive (k : Shape) {m : Machine}
    (h : Reach (step k) (SeenOff k) (start k) m) :
    (∀ d ∈ m.destroyed, d.under = []) ∧ (∀ p ∈ m.pipeline, ∀ d ∈ m.destroyed, d.pipeline ≠ p) ∧
      (∀ l ∈ m.launched, l.Ran k) ∧
      ∀ e m', step k m e = some m' → (SeenOff k m e ↔ ∀ d ∈ m'.destroyed, d.under = []) := by
  have ht := tended_reach h
  refine ⟨ht.finished,?_,ht.ran,fun e m' hs => ⟨fun ho => (ht.step ho hs).finished,?_⟩⟩
  · rintro p hp d hd rfl
    exact Nat.lt_irrefl _ ((ht.older _ hp).2 d hd)
  · intro hu p hp i hi hrun
    have hnil : m.under k p = [] := hu _ (letsGo_destroyed hp hs)
    have hmem : i ∈ m.under k p := Machine.mem_under.mpr ⟨(ht.known i hrun.1).2.1,hrun⟩
    rw [hnil] at hmem
    cases hmem

theorem three_deep : 0 < 3 := by decide

def perProgram : Shape := ⟨3,three_deep,false,0,0,4,4096⟩

def compiled : ProgramCalls := ⟨false,true,0⟩

theorem pipelines_outlive_once :
    ∃ m, Reach (step perProgram) (SeenOff perProgram) (start perProgram) m ∧
      m.destroyed = [⟨⟨1,7⟩,[]⟩] ∧ ∀ l ∈ m.launched, l.Ran perProgram := by
  have h := reach_of_any (step perProgram) (SeenOff perProgram) (start perProgram)
    [.prepareProgram 7 compiled,.dispatch 0 10 allWell,.prepareProgram 8 compiled,
      .dispatch 10 20 allWell,.finish 0 [],.collect 32 fenceSeen,.finish 1 [],.collect 32 fenceSeen]
    (fun m => m.destroyed = [⟨⟨1,7⟩,[]⟩]) (by decide +kernel)
  obtain ⟨m,hm,hd⟩ := h
  exact ⟨m,hm,hd,(pipelines_outlive perProgram hm).2.2.1⟩

/-- One in flight, a new program, and the collect drops the old pipeline before it looks at
the fence. -/
theorem pipelines_not_always_outlive :
    ¬∀ (k : Shape) (m : Machine), Reach (step k) free (start k) m →
      ∀ d ∈ m.destroyed, d.under = [] := by
  intro hall
  have h := reach_of_any (step perProgram) free (start perProgram)
    [.prepareProgram 7 compiled,.dispatch 0 10 allWell,.prepareProgram 8 compiled,
      .collect 32 fenceSeen]
    (fun m => ⟨⟨1,7⟩,[0]⟩ ∈ m.destroyed) (by decide +kernel)
  obtain ⟨m,hm,hd⟩ := h
  cases hall perProgram m hm _ hd

end VkMiner.Vulkan
