import VkMiner.Vulkan.Kernel
set_option autoImplicit false

/-! What is in flight: the queue of the kernel against the cursor of the ring. -/

namespace VkMiner.Vulkan
open Runs

variable {k : Shape} {m m' : Machine} {e : Event} {l : Launch}

theorem Slot.poll_job {s t : Slot} {error done : Bool} (h : s.poll error = some (done,t)) :
    t.job = s.job ∧ t.readback = s.readback ∧ t.fence = s.fence ∧ t.running = s.running := by
  simp only [Slot.poll] at h
  split at h
  · cases h
    simp
  · split at h
    · cases h
    · split at h <;> cases h <;> simp

theorem Slot.wait_eq {s t : Slot} {error : Bool} (h : s.wait error = some t) :
    s.poll error = some (true,t) := by
  simp only [Slot.wait] at h
  split at h
  · cases h
    assumption
  · cases h

def Slot.Seen (s t : Slot) : Prop :=
  s.pending = false ∧ t = s ∨ s.fence = true ∧ t = { s with pending := false, unseen := false }

theorem Slot.poll_done {s t : Slot} {error : Bool} (h : s.poll error = some (true,t)) :
    s.Seen t := by
  cases hp : s.pending with
  | false =>
    simp only [Slot.poll,hp] at h
    cases h
    exact .inl ⟨hp,rfl⟩
  | true =>
    cases error <;> cases hf : s.fence <;> simp [Slot.poll,hp,hf] at h
    exact .inr ⟨hf,by rw [← h,hf]⟩

theorem Slot.poll_not_done {s t : Slot} {error : Bool} (h : s.poll error = some (false,t)) :
    t = s := by
  cases hp : s.pending <;> cases error <;> cases hf : s.fence <;> simp [Slot.poll,hp,hf] at h
  exact h.symm

namespace Machine

/-- The ring moved on to the slot after, whose own slot is now `s`. -/
def took (k : Shape) (m : Machine) (s : Slot) (g : List Nat) : Machine :=
  { m.setSlot m.next s with
    next := (m.next + 1) % k.depth
    begun := m.begun + 1
    givenUp := g }

def launch (k : Shape) (m : Machine) (s : Slot) (g : List Nat) (l : Launch) : Machine :=
  { m.took k s g with
    queue := Function.update m.queue ((m.head + m.inflight) % k.depth) ⟨l.slot,l.count⟩
    inflight := m.inflight + 1
    launched := m.launched ++ [l] }

/-- The slot that the ring stopped at, waited for or not: the same work was the last to be
submitted from it, and what was given up on is remembered until somebody has waited. -/
structure Stopped (m : Machine) (s : Slot) (g : List Nat) : Prop where
  job : s.job = (m.slots m.next).job
  cases : s.unseen = (m.slots m.next).unseen ∧ s.pending = (m.slots m.next).pending ∧
      (g = m.givenUp ∨ s.pending = false ∧ g = m.givenUp.filter (· ≠ m.next)) ∨
    s.unseen = false ∧ s.pending = false ∧ g = m.givenUp.filter (· ≠ m.next)

def collected (k : Shape) (m : Machine) (s : Slot) (g : List Nat) (r : Return) : Machine :=
  { m with
    head := (m.head + 1) % k.depth
    inflight := m.inflight - 1
    retiring := (m.take k).retiring
    destroyed := (m.take k).destroyed
    slots := Function.update m.slots (m.queue m.head).slot s
    givenUp := g
    returned := m.returned ++ [r] }

theorem took_setSlot (k : Shape) (m : Machine) (s t : Slot) (g : List Nat) :
    (m.took k s g).setSlot m.next t = m.took k t g := by
  simp [took,setSlot]

theorem Stopped.of_wait {s : Slot} {error : Bool} (h : (m.slots m.next).wait error = some s) :
    m.Stopped s (m.givenUp.filter (· ≠ m.next)) ∧ s.pending = false := by
  have hp := Slot.wait_eq h
  have hj := (Slot.poll_job hp).1
  obtain ⟨hn,rfl⟩ | ⟨-,rfl⟩ := Slot.poll_done hp
  · exact ⟨⟨hj,.inl ⟨rfl,rfl,.inr ⟨hn,rfl⟩⟩⟩,hn⟩
  · exact ⟨⟨hj,.inr ⟨rfl,rfl,rfl⟩⟩,rfl⟩

theorem begin_cases (k : Shape) (m : Machine) (c : DispatchCalls) :
    ∃ s g, m.Stopped s g ∧ (m.begin k c).2 = m.took k s g ∧
      ((m.begin k c).1 = none ∨
        (m.begin k c).1 = some m.next ∧ g = m.givenUp.filter (· ≠ m.next)) := by
  simp only [begin]
  cases hw : (m.slots m.next).wait c.waitError with
  | none =>
    refine ⟨m.slots m.next,m.givenUp,⟨rfl,.inl ⟨rfl,rfl,.inl rfl⟩⟩,?_,.inl rfl⟩
    simp [took,setSlot]
  | some s =>
    refine ⟨s,m.givenUp.filter (· ≠ m.next),(Stopped.of_wait hw).1,?_,?_⟩
    · simp only
      split <;> rfl
    · simp only
      split
      · exact .inr ⟨rfl,trivial⟩
      · exact .inl rfl

theorem submit_cases (m : Machine) (l : Launch) (c : DispatchCalls) :
    m.submit l c = (false,m) ∨
      m.submit l c = (false,m.setSlot l.slot { m.slots l.slot with fence := false }) ∨
      m.submit l c = (true,m.setSlot l.slot
        { m.slots l.slot with
          fence := false, pending := true, running := true, job := some l, unseen := true }) := by
  simp only [submit]
  split
  · exact .inl rfl
  · split
    · exact .inl rfl
    · split
      · exact .inr (.inl rfl)
      · exact .inr (.inr rfl)

theorem dispatch_cases (k : Shape) (m : Machine) (start count : Nat) (c : DispatchCalls) :
    (m.dispatch k start count c).2 = m ∨
      m.ready k count c = true ∧
        ((∃ s g, m.Stopped s g ∧ (m.dispatch k start count c).2 = m.took k s g) ∨
         ∃ s, s.pending = true ∧ s.unseen = true ∧ s.fence = false ∧
            s.job = some (m.recorded m.next start count) ∧
            (m.dispatch k start count c).2 =
              m.launch k s (m.givenUp.filter (· ≠ m.next)) (m.recorded m.next start count)) := by
  by_cases hr : m.ready k count c = true
  · refine .inr ⟨hr,?_⟩
    obtain ⟨s,g,hs,h₂,h₁⟩ := begin_cases k m c
    rcases hb : m.begin k c with ⟨o,m₁⟩
    rw [hb] at h₁ h₂
    simp only at h₁ h₂
    subst h₂
    simp only [dispatch,hr,if_true,hb]
    rcases h₁ with rfl | ⟨rfl,rfl⟩
    · exact .inl ⟨s,g,hs,rfl⟩
    · simp only
      have hslot : (m.took k s (m.givenUp.filter (· ≠ m.next))).slots m.next = s := by
        simp [took,setSlot]
      split
      · exact .inl ⟨s,_,hs,rfl⟩
      · obtain h | h | h := submit_cases (m.took k s (m.givenUp.filter (· ≠ m.next)))
          (m.recorded m.next start count) c
        · rw [h]
          exact .inl ⟨s,_,hs,rfl⟩
        · rw [h]
          simp only [recorded,hslot,took_setSlot]
          exact .inl ⟨{ s with fence := false },_,⟨hs.job,hs.cases⟩,rfl⟩
        · rw [h]
          simp only [recorded,hslot,took_setSlot]
          exact .inr ⟨_,rfl,rfl,rfl,rfl,rfl⟩
  · exact .inl (by simp [dispatch,hr])

theorem answer_cases (m : Machine) (p : Pending) (max : Int) (c : CollectCalls) :
    m.answer p max c = (⟨p.count,max,none⟩,{ m with givenUp := m.givenUp ++ [p.slot] }) ∨
      ∃ s a, (m.slots p.slot).Seen s ∧
        (a = none ∨ a = some (solutions (m.slots p.slot).readback max)) ∧
        m.answer p max c = (⟨p.count,max,a⟩,m.setSlot p.slot s) := by
  have hseen : ∀ s, (m.slots p.slot).Seen s → s.readback = (m.slots p.slot).readback := by
    rintro s (⟨-,rfl⟩ | ⟨-,rfl⟩) <;> rfl
  simp only [answer]
  cases hp : (m.slots p.slot).poll c.pollError with
  | none => exact .inl rfl
  | some r =>
    obtain ⟨done,s⟩ := r
    simp only
    cases hw : (if done = true then some s else s.wait c.waitError) with
    | none => exact .inl rfl
    | some t =>
      have ht : (m.slots p.slot).Seen t := by
        cases done with
        | true =>
          cases hw
          exact Slot.poll_done hp
        | false =>
          obtain rfl := Slot.poll_not_done hp
          exact Slot.poll_done (Slot.wait_eq hw)
      simp only [hseen t ht]
      cases c.invalidated with
      | true => exact .inr ⟨t,_,ht,.inr rfl,rfl⟩
      | false => exact .inr ⟨t,none,ht,.inl rfl,rfl⟩

theorem take_eq (k : Shape) (m : Machine) : m.take k = { m with
    head := (m.head + 1) % k.depth
    inflight := m.inflight - 1
    retiring := (m.take k).retiring
    destroyed := (m.take k).destroyed } := by
  simp only [take]
  cases m.retiring with
  | none => rfl
  | some p =>
    simp only
    split <;> rfl

end Machine

/-- The dispatches that nobody has collected yet, the oldest first. -/
def Machine.outstanding (m : Machine) : List Launch := m.launched.drop m.returned.length

def Machine.Holds (m : Machine) (l : Launch) : Prop :=
  (m.slots l.slot).job = some l ∧ (m.slots l.slot).pending = true ∧
    ((m.slots l.slot).fence = true → (l,(m.slots l.slot).readback) ∈ m.finished)

/-- A return is the answer to that launch: its count, and solutions only out of the words that
the device wrote for it. -/
def Machine.Answers (m : Machine) (r : Return) (l : Launch) : Prop :=
  r.count = l.count ∧
    ∀ a, r.answer = some a → ∃ w, (l,w) ∈ m.finished ∧ a = solutions w r.max

/-- Every dispatch that reported success has one return, in the same order, or is among those
that are in flight, of which there are no more than the ring is deep. -/
structure Faithful (k : Shape) (m : Machine) : Prop where
  counted : m.returned.length + m.inflight = m.launched.length
  bounded : m.inflight ≤ k.depth
  answers : ∀ (i : Nat) r l, m.returned[i]? = some r → m.launched[i]? = some l → m.Answers r l

/-- The slot that a step takes from the ring. -/
def handsOut (k : Shape) (m : Machine) : Event → Option Nat
  | .dispatch _ count c => if m.ready k count c then (m.begin k c).1 else none
  | _ => none

/-- The slot belongs to an entry of the queue. -/
def Uncollected (k : Shape) (m : Machine) (i : Nat) : Prop :=
  ∃ j < m.inflight, (m.queue ((m.head + j) % k.depth)).slot = i

instance (k : Shape) (m : Machine) (i : Nat) : Decidable (Uncollected k m i) :=
  inferInstanceAs (Decidable (∃ j < m.inflight, _ = _))

/-- A dispatch that gets as far as the ring comes while fewer slots than the ring has were
taken from it since, and by, the oldest dispatch in flight. -/
def Spaced (k : Shape) (m : Machine) : Event → Prop
  | .dispatch _ count c => m.ready k count c = true →
      ∀ l ∈ m.outstanding.head?, m.begun < l.ticket + k.depth
  | _ => True

instance (k : Shape) (m : Machine) (e : Event) : Decidable (Spaced k m e) :=
  match e with
  | .dispatch _ count c => inferInstanceAs (Decidable (m.ready k count c = true →
      ∀ l ∈ m.outstanding.head?, m.begun < l.ticket + k.depth))
  | .prepareState _ | .prepareProgram _ _ | .collect _ _ | .finish _ _ => isTrue trivial

structure InStep (k : Shape) (m : Machine) : Prop where
  next : m.next = m.begun % k.depth
  inflight : m.outstanding.length = m.inflight
  returned : m.returned.length ≤ m.launched.length
  bounded : m.inflight ≤ k.depth
  head : m.head < k.depth
  slot : ∀ l ∈ m.launched, l.slot = l.ticket % k.depth ∧ l.ticket < m.begun
  sorted : m.launched.Pairwise fun a b => a.ticket < b.ticket
  window : ∀ l ∈ m.outstanding, m.begun ≤ l.ticket + k.depth
  queued : ∀ (j : Nat) l, m.outstanding[j]? = some l →
    m.queue ((m.head + j) % k.depth) = ⟨l.slot,l.count⟩
  holds : ∀ l ∈ m.outstanding, m.Holds l
  answers : ∀ (i : Nat) r l, m.returned[i]? = some r → m.launched[i]? = some l → m.Answers r l

theorem inStep_start (k : Shape) : InStep k (start k) where
  next := (Nat.zero_mod _).symm
  inflight := rfl
  returned := Nat.le_refl _
  bounded := Nat.zero_le _
  head := k.depth_pos
  slot := by simp [start]
  sorted := .nil
  window := by simp [start,Machine.outstanding]
  queued := by simp [start,Machine.outstanding]
  holds := by simp [start,Machine.outstanding]
  answers := by simp [start]

theorem InStep.faithful (h : InStep k m) : Faithful k m where
  counted := by
    have := h.inflight
    simp only [Machine.outstanding,List.length_drop] at this
    have := h.returned
    omega
  bounded := h.bounded
  answers := h.answers

theorem mod_ne_of_lt {a b d : Nat} (h : a < b) (h' : b < a + d) : b % d ≠ a % d := by
  intro he
  have hz := Nat.sub_mod_eq_zero_of_mod_eq he
  have hle := Nat.le_of_dvd (by omega) (Nat.dvd_of_mod_eq_zero hz)
  omega

theorem InStep.launched_of (h : l ∈ m.outstanding) : l ∈ m.launched := List.mem_of_mem_drop h

theorem InStep.spaced (h : InStep k m)
    (hs : ∀ l ∈ m.outstanding.head?, m.begun < l.ticket + k.depth) :
    ∀ l ∈ m.outstanding, m.begun < l.ticket + k.depth := by
  have hp : m.outstanding.Pairwise fun a b => a.ticket < b.ticket := h.sorted.drop
  revert hs hp
  cases m.outstanding with
  | nil => simp
  | cons o rest =>
    intro hs hp l hl
    have ho := hs o rfl
    rcases List.mem_cons.mp hl with rfl | hl
    · exact ho
    · have := List.rel_of_pairwise_cons hp hl
      omega

theorem InStep.slot_ne (h : InStep k m) (hl : l ∈ m.outstanding)
    (hs : m.begun < l.ticket + k.depth) : l.slot ≠ m.next := by
  obtain ⟨he,ht⟩ := h.slot l (InStep.launched_of hl)
  rw [he,h.next]
  exact (mod_ne_of_lt ht hs).symm

/-- Neither the program nor `wait_idle` touches what is in flight. -/
theorem InStep.frame (h : InStep k m) (hn : m'.next = m.next) (hb : m'.begun = m.begun)
    (hq : m'.queue = m.queue) (hh : m'.head = m.head) (hi : m'.inflight = m.inflight)
    (hl : m'.launched = m.launched) (hr : m'.returned = m.returned)
    (hf : m'.finished = m.finished)
    (hs : ∀ i, (m'.slots i).job = (m.slots i).job ∧ (m'.slots i).pending = (m.slots i).pending ∧
      (m'.slots i).fence = (m.slots i).fence ∧ (m'.slots i).readback = (m.slots i).readback) :
    InStep k m' := by
  have ho : m'.outstanding = m.outstanding := by simp [Machine.outstanding,hl,hr]
  refine ⟨?_,?_,?_,?_,?_,?_,?_,?_,?_,?_,?_⟩
  · rw [hn,hb,h.next]
  · rw [ho,hi,h.inflight]
  · rw [hr,hl]
    exact h.returned
  · rw [hi]
    exact h.bounded
  · rw [hh]
    exact h.head
  · rw [hl,hb]
    exact h.slot
  · rw [hl]
    exact h.sorted
  · rw [ho,hb]
    exact h.window
  · rw [ho,hq,hh]
    exact h.queued
  · rw [ho]
    intro l hm
    obtain ⟨h₁,h₂,h₃,h₄⟩ := hs l.slot
    have := h.holds l hm
    simp only [Machine.Holds,h₁,h₂,h₃,h₄,hf]
    exact this
  · intro i r l hr' hl'
    rw [hr] at hr'
    rw [hl] at hl'
    obtain ⟨hc,ha⟩ := h.answers i r l hr' hl'
    exact ⟨hc,by rw [hf]; exact ha⟩

theorem InStep.took {s : Slot} {g : List Nat} (h : InStep k m)
    (hs : ∀ l ∈ m.outstanding, m.begun < l.ticket + k.depth) : InStep k (m.took k s g) := by
  refine ⟨?_,h.inflight,h.returned,h.bounded,h.head,?_,h.sorted,?_,h.queued,?_,h.answers⟩
  · simp only [Machine.took,h.next,Nat.mod_add_mod]
  · intro l hl
    exact ⟨(h.slot l hl).1,Nat.lt_succ_of_lt (h.slot l hl).2⟩
  · intro l hl
    exact hs l hl
  · intro l hl
    have hne := h.slot_ne hl (hs l hl)
    have := h.holds l hl
    simpa only [Machine.Holds,Machine.took,Machine.setSlot,Function.update_of_ne hne] using this

theorem outstanding_launch {s : Slot} {g : List Nat} (h : m.returned.length ≤ m.launched.length) :
    (m.launch k s g l).outstanding = m.outstanding ++ [l] := by
  simp [Machine.outstanding,Machine.launch,Machine.took,Machine.setSlot,List.drop_append_of_le_length h]

theorem InStep.launch {s : Slot} {g : List Nat} (h : InStep k m)
    (hs : ∀ l ∈ m.outstanding, m.begun < l.ticket + k.depth) (hi : m.inflight < k.depth)
    (ht : l.ticket = m.begun) (hsl : l.slot = m.next) (hp : s.pending = true)
    (hf : s.fence = false) (hj : s.job = some l) : InStep k (m.launch k s g l) := by
  have ho := outstanding_launch (k := k) (l := l) (s := s) (g := g) h.returned
  have hk := h.took (s := s) (g := g) hs
  refine ⟨hk.next,?_,?_,?_,h.head,?_,?_,?_,?_,?_,?_⟩
  · rw [ho,List.length_append,h.inflight]
    rfl
  · have := h.returned
    simp only [Machine.launch,List.length_append,Machine.took,Machine.setSlot]
    omega
  · exact hi
  · intro l' hl
    rcases List.mem_append.mp hl with hl | hl
    · exact hk.slot l' hl
    · rw [List.mem_singleton.mp hl,hsl,ht]
      exact ⟨h.next,Nat.lt_succ_self _⟩
  · refine List.pairwise_append.mpr ⟨h.sorted,List.pairwise_singleton _ _,?_⟩
    intro a ha b hb
    rw [List.mem_singleton.mp hb,ht]
    exact (h.slot a ha).2
  · rw [ho]
    intro l' hl
    rcases List.mem_append.mp hl with hl | hl
    · exact hk.window l' hl
    · rw [List.mem_singleton.mp hl,ht]
      have := k.depth_pos
      simp only [Machine.launch,Machine.took]
      omega
  · rw [ho]
    intro j l' hl
    simp only [Machine.launch,Machine.took,Machine.setSlot]
    rcases Nat.lt_trichotomy j m.inflight with hj' | rfl | hj'
    · rw [List.getElem?_append_left (by rw [h.inflight]; exact hj')] at hl
      have hne : (m.head + j) % k.depth ≠ (m.head + m.inflight) % k.depth :=
        (mod_ne_of_lt (by omega) (by omega)).symm
      rw [Function.update_of_ne hne]
      exact h.queued j l' hl
    · rw [← h.inflight,List.getElem?_concat_length] at hl
      cases hl
      rw [Function.update_self]
    · rw [List.getElem?_eq_none (by simp [h.inflight]; omega)] at hl
      cases hl
  · rw [ho]
    intro l' hl
    rcases List.mem_append.mp hl with hl | hl
    · exact hk.holds l' hl
    · rw [List.mem_singleton.mp hl]
      simp only [Machine.Holds,Machine.launch,Machine.took,Machine.setSlot,hsl,
        Function.update_self,hp,hf,hj]
      refine ⟨trivial,trivial,?_⟩
      intro hn
      cases hn
  · intro i r l' hr hl
    have hlt : i < m.launched.length :=
      Nat.lt_of_lt_of_le (List.getElem?_eq_some_iff.mp hr).1 h.returned
    simp only [Machine.launch,List.getElem?_append_left hlt] at hl
    exact h.answers i r l' hr hl

/-- A collect of the oldest entry either gives up on its slot or has seen its fence. -/
theorem collect_cases (hi : m.inflight ≠ 0) (max : Int) (c : CollectCalls) :
    ∃ r s g, m.collect k max c = m.collected k s g r ∧ r.count = (m.queue m.head).count ∧
      (g = m.givenUp ++ [(m.queue m.head).slot] ∧ s = m.slots (m.queue m.head).slot ∧
          r.answer = none ∨
        g = m.givenUp ∧ (m.slots (m.queue m.head).slot).Seen s ∧ (r.answer = none ∨
          r.answer = some (solutions (m.slots (m.queue m.head).slot).readback r.max))) := by
  simp only [Machine.collect,hi,if_false]
  rw [m.take_eq k]
  obtain h | ⟨s,a,hs,ha,h⟩ := Machine.answer_cases
    { m with
      head := (m.head + 1) % k.depth, inflight := m.inflight - 1,
      retiring := (m.take k).retiring, destroyed := (m.take k).destroyed }
    (m.queue m.head) max c
  · rw [h]
    refine ⟨⟨(m.queue m.head).count,max,none⟩,m.slots (m.queue m.head).slot,
      m.givenUp ++ [(m.queue m.head).slot],?_,rfl,.inl ⟨rfl,rfl,rfl⟩⟩
    simp only [Machine.collected,Function.update_eq_self]
  · rw [h]
    exact ⟨_,s,_,rfl,rfl,.inr ⟨rfl,hs,ha⟩⟩

theorem InStep.collect (h : InStep k m) (max : Int) (c : CollectCalls) :
    InStep k (m.collect k max c) := by
  by_cases hi : m.inflight = 0
  · simpa only [Machine.collect,hi,if_true] using h
  obtain ⟨r,s,g,he,hc,ha⟩ := collect_cases (k := k) hi max c
  have ha' : r.answer = none ∨ (m.slots (m.queue m.head).slot).Seen s ∧
      r.answer = some (solutions (m.slots (m.queue m.head).slot).readback r.max) := by
    obtain ⟨-,-,ha⟩ | ⟨-,hs,ha | ha⟩ := ha
    · exact .inl ha
    · exact .inl ha
    · exact .inr ⟨hs,ha⟩
  rw [he]
  obtain ⟨o,rest,ho⟩ : ∃ o rest, m.outstanding = o :: rest := by
    cases hm : m.outstanding with
    | nil =>
      have := h.inflight
      rw [hm] at this
      exact absurd this.symm hi
    | cons o rest => exact ⟨o,rest,rfl⟩
  have ho' : (m.collected k s g r).outstanding = rest := by
    have := congrArg List.tail ho
    simpa only [Machine.outstanding,Machine.collected,List.length_append,List.length_singleton,
      List.tail_drop,List.tail_cons] using this
  have hentry : m.queue m.head = ⟨o.slot,o.count⟩ := by
    have := h.queued 0 o (by rw [ho]; rfl)
    rwa [Nat.add_zero,Nat.mod_eq_of_lt h.head] at this
  have hget : m.launched[m.returned.length]? = some o := by
    have := congrArg (·[0]?) ho
    simpa only [Machine.outstanding,List.getElem?_drop,Nat.add_zero,List.getElem?_cons_zero]
      using this
  have hsub : ∀ l ∈ rest, l ∈ m.outstanding := fun l hl => by rw [ho]; exact .tail _ hl
  have hlen : rest.length + 1 = m.inflight := by rw [← h.inflight,ho]; rfl
  refine ⟨h.next,?_,?_,?_,Nat.mod_lt _ k.depth_pos,h.slot,h.sorted,?_,?_,?_,?_⟩
  · rw [ho']
    simp only [Machine.collected]
    omega
  · have := h.inflight
    simp only [Machine.outstanding,List.length_drop] at this
    simp only [Machine.collected,List.length_append,List.length_singleton]
    omega
  · have := h.bounded
    simp only [Machine.collected]
    omega
  · rw [ho']
    exact fun l hm => h.window l (hsub l hm)
  · rw [ho']
    intro j l hj'
    have := h.queued (j + 1) l (by rw [ho]; exact hj')
    simp only [Machine.collected]
    rwa [Nat.mod_add_mod,Nat.add_assoc,Nat.add_comm 1 j]
  · rw [ho']
    intro l hm
    have hp : (o :: rest).Pairwise fun a b => a.ticket < b.ticket := ho ▸ h.sorted.drop
    have hlt := List.rel_of_pairwise_cons hp hm
    have ho₁ := h.slot o (InStep.launched_of (ho ▸ .head _))
    have hl₁ := h.slot l (InStep.launched_of (hsub l hm))
    have hw := h.window o (ho ▸ .head _)
    have hne : l.slot ≠ (m.queue m.head).slot := by
      rw [hentry,ho₁.1,hl₁.1]
      exact mod_ne_of_lt hlt (by omega)
    simp only [Machine.Holds,Machine.collected,Function.update_of_ne hne]
    exact h.holds l (hsub l hm)
  · intro i r' l hr' hl'
    simp only [Machine.collected] at hr' hl'
    rcases Nat.lt_or_ge i m.returned.length with hlt | hge
    · rw [List.getElem?_append_left hlt] at hr'
      exact h.answers i r' l hr' hl'
    · obtain rfl : i = m.returned.length := by
        have := (List.getElem?_eq_some_iff.mp hr').1
        simp only [List.length_append,List.length_singleton] at this
        omega
      rw [List.getElem?_concat_length] at hr'
      cases hr'
      cases hget.symm.trans hl'
      refine ⟨by rw [hc,hentry],fun a hsome => ?_⟩
      obtain ha | ⟨hseen,ha⟩ := ha'
      · cases ha.symm.trans hsome
      · cases ha.symm.trans hsome
        obtain ⟨hjob,hpend,hfence⟩ := h.holds o (ho ▸ .head _)
        rw [hentry] at hseen ⊢
        obtain ⟨hno,-⟩ | ⟨hyes,-⟩ := hseen
        · cases hpend.symm.trans hno
        · exact ⟨_,hfence hyes,rfl⟩

theorem InStep.finish {i : Nat} {w : List UInt32} (h : InStep k m)
    (hs : m.finish i w = some m') : InStep k m' := by
  simp only [Machine.finish] at hs
  split at hs
  · rename_i lj hrun hjob
    cases hs
    refine ⟨h.next,h.inflight,h.returned,h.bounded,h.head,h.slot,h.sorted,h.window,h.queued,?_,?_⟩
    · intro l hl
      obtain ⟨h₁,h₂,h₃⟩ := h.holds l hl
      by_cases he : l.slot = i
      · subst he
        cases hjob.symm.trans h₁
        simp only [Machine.Holds,Machine.setSlot,Function.update_self]
        exact ⟨h₁,h₂,fun _ => List.mem_append_right _ (List.mem_singleton.mpr rfl)⟩
      · simp only [Machine.Holds,Machine.setSlot,Function.update_of_ne he]
        exact ⟨h₁,h₂,fun hf => List.mem_append_left _ (h₃ hf)⟩
    · intro j r l hr hl
      obtain ⟨h₁,h₂⟩ := h.answers j r l hr hl
      refine ⟨h₁,fun a ha => ?_⟩
      obtain ⟨w',hw,rfl⟩ := h₂ a ha
      exact ⟨w',List.mem_append_left _ hw,rfl⟩
  · cases hs

theorem InStep.dispatch (h : InStep k m) (start count : Nat) (c : DispatchCalls)
    (hs : Spaced k m (.dispatch start count c)) :
    InStep k (m.dispatch k start count c).2 := by
  obtain he | ⟨hr,he⟩ := m.dispatch_cases k start count c
  · rwa [he]
  have hsp := h.spaced (hs hr)
  obtain ⟨s,g,-,he⟩ | ⟨s,hp,-,hf,hj,he⟩ := he
  · rw [he]
    exact h.took hsp
  · rw [he]
    have hi : m.inflight < k.depth := by
      simp only [Machine.ready,Bool.and_eq_true,decide_eq_true_eq] at hr
      exact hr.1.1.2
    exact h.launch hsp hi rfl rfl hp hf hj

theorem InStep.prepareProgram (h : InStep k m) (key : Nat) (c : ProgramCalls) :
    InStep k (m.prepareProgram k key c).2 := by
  have hsame : InStep k (m.retire k m.pipeline) := by
    simp only [Machine.retire]
    split
    · exact h
    · split <;> split <;>
        exact h.frame rfl rfl rfl rfl rfl rfl rfl rfl fun i => ⟨rfl,rfl,rfl,rfl⟩
  simp only [Machine.prepareProgram]
  split
  · exact h.frame rfl rfl rfl rfl rfl rfl rfl rfl fun i => ⟨rfl,rfl,rfl,rfl⟩
  · split
    · exact h.frame rfl rfl rfl rfl rfl rfl rfl rfl fun i => ⟨rfl,rfl,rfl,rfl⟩
    · exact hsame.frame rfl rfl rfl rfl rfl rfl rfl rfl fun i => ⟨rfl,rfl,rfl,rfl⟩

theorem InStep.step (h : InStep k m) (ho : Spaced k m e) (hs : step k m e = some m') :
    InStep k m' := by
  simp only [Vulkan.step] at hs
  split at hs
  · cases hs
  cases e with
  | prepareState ensured =>
    simp only [Option.some.injEq] at hs
    subst hs
    split
    · exact h.frame rfl rfl rfl rfl rfl rfl rfl rfl fun i => ⟨rfl,rfl,rfl,rfl⟩
    · exact h
  | prepareProgram key c =>
    cases hs
    exact h.prepareProgram key c
  | dispatch start count c =>
    cases hs
    exact h.dispatch start count c ho
  | collect max c =>
    cases hs
    exact h.collect max c
  | finish i w => exact h.finish hs

theorem inStep_reach (h : Reach (step k) (Spaced k) (start k) m) : InStep k m :=
  h.invariant (inStep_start k) fun _ _ _ hm ho hs => hm.step ho hs

theorem handsOut_next {i : Nat} (h : handsOut k m e = some i) :
    i = m.next ∧ ∃ start count c, e = .dispatch start count c ∧ m.ready k count c = true := by
  cases e with
  | dispatch start count c =>
    simp only [handsOut] at h
    split at h
    · rename_i hr
      obtain ⟨s,g,-,-,hb | ⟨hb,-⟩⟩ := m.begin_cases k c
      · cases hb.symm.trans h
      · cases hb.symm.trans h
        exact ⟨rfl,start,count,c,rfl,hr⟩
    · cases h
  | prepareState | prepareProgram | collect | finish => cases h

/-- A slot comes out of the ring while it is uncollected exactly where the dispatch that takes
it was not spaced. -/
theorem InStep.spaced_iff {i : Nat} (h : InStep k m) (hi : handsOut k m e = some i) :
    Spaced k m e ↔ ¬Uncollected k m i := by
  obtain ⟨rfl,start,count,c,rfl,hr⟩ := handsOut_next hi
  constructor
  · rintro hs ⟨j,hj,hslot⟩
    have hlt : j < m.outstanding.length := by rw [h.inflight]; exact hj
    have hget : m.outstanding[j]? = some m.outstanding[j] := List.getElem?_eq_getElem hlt
    have hmem : m.outstanding[j] ∈ m.outstanding := List.getElem_mem hlt
    rw [h.queued j _ hget] at hslot
    exact h.slot_ne hmem (h.spaced (hs hr) _ hmem) hslot
  · intro hu hready l hl
    by_contra hge
    have hl' : m.outstanding[0]? = some l := by rw [← List.head?_eq_getElem?]; exact hl
    have hmem : l ∈ m.outstanding := List.mem_of_getElem? hl'
    have hw := h.window l hmem
    have hpos : 0 < m.inflight := by
      rw [← h.inflight]
      exact List.length_pos_of_mem hmem
    refine hu ⟨0,hpos,?_⟩
    rw [h.queued 0 l hl']
    have hb : m.begun = l.ticket + k.depth := by omega
    rw [(h.slot l (InStep.launched_of hmem)).1,h.next,hb,Nat.add_mod_right]

/-- Where every dispatch is spaced, everything in flight comes back in order and as its own, and
a dispatch takes a slot that is free exactly when it is spaced too. -/
theorem dispatches_faithful (k : Shape) {m : Machine}
    (h : Reach (step k) (Spaced k) (start k) m) :
    Faithful k m ∧ ∀ e i, handsOut k m e = some i → (Spaced k m e ↔ ¬Uncollected k m i) :=
  ⟨(inStep_reach h).faithful,fun _ _ hi => (inStep_reach h).spaced_iff hi⟩

def threeDeep : Shape := ⟨3,by decide,false,0,0,0,4096⟩

def allWell : DispatchCalls := ⟨true,0,0,false,true,true,true,true,true,true⟩

def fenceSeen : CollectCalls := ⟨false,false,true⟩

def foundOne (nonce : UInt32) : List UInt32 := [1,0,0,nonce,0,0,0,0,0,0,0,0,0]

theorem dispatches_faithful_once :
    ∃ m, Reach (step threeDeep) (Spaced threeDeep) (start threeDeep) m ∧
      m.returned = [⟨10,32,some [⟨5,[0,0,0,0,0,0,0,0]⟩]⟩] ∧ Faithful threeDeep m := by
  have h := reach_of_any (step threeDeep) (Spaced threeDeep) (start threeDeep)
    [.dispatch 0 10 allWell,.dispatch 10 20 allWell,.dispatch 30 30 { allWell with ends := false },
      .finish 0 (foundOne 5),.collect 32 fenceSeen]
    (fun m => m.returned = [⟨10,32,some [⟨5,[0,0,0,0,0,0,0,0]⟩]⟩]) (by decide +kernel)
  obtain ⟨m,hm,hr⟩ := h
  exact ⟨m,hm,hr,(dispatches_faithful threeDeep hm).1⟩

/-- Two in flight, a submit that fails with the third slot, and the next dispatch is handed the
first one's. -/
theorem dispatches_not_always_faithful :
    ¬∀ (k : Shape) (m : Machine), Reach (step k) free (start k) m →
      Faithful k m ∧ ∀ e i, handsOut k m e = some i → ¬Uncollected k m i := by
  intro hall
  have h := reach_of_any (step threeDeep) free (start threeDeep)
    [.dispatch 0 10 allWell,.dispatch 10 20 allWell,
      .dispatch 30 30 { allWell with submitted := false },.finish 0 (foundOne 5)]
    (fun m => handsOut threeDeep m (.dispatch 30 30 allWell) = some 0 ∧ Uncollected threeDeep m 0)
    (by decide +kernel)
  obtain ⟨m,hm,ho,hu⟩ := h
  exact (hall threeDeep m hm).2 _ 0 ho hu

end VkMiner.Vulkan
