import Mathlib.Data.List.Perm.Basic
import VkMiner.Lib.Runs
set_option autoImplicit false

/-! `thread_q` of util.c: a list under a lock, and the condition variable that a pop
sleeps on, with every wakeup that the condition variable may give. -/

namespace VkMiner.Queue
open Runs

variable {α : Type*}

/-- A call of `tq_pop` inside its wait; `signalled` when a signal has chosen it. -/
structure Waiter where
  timed : Bool
  signalled : Bool
  deriving DecidableEq, Repr

/-- What a call of `tq_pop` returned; a null pointer is `none`. -/
structure Popped (α : Type*) where
  timed : Bool
  value : Option α
  deriving DecidableEq, Repr

/-- `pushed`, `popped` and `answers` are history. -/
structure ThreadQ (α : Type*) where
  q : List (Option α)
  frozen : Bool
  waiters : List Waiter
  pushed : List (Option α)
  popped : List (Option α)
  answers : List (Popped α)
  deriving DecidableEq

/-- `chosen` are the waiters a signal wakes: one of them at least, if there are any. -/
inductive Event (α : Type*) where
  | push (data : Option α) (chosen : List Nat)
  | freezethaw (frozen : Bool) (chosen : List Nat)
  | pop (timed : Bool)
  | wakes (i : Nat)
  | spurious (i : Nat)
  | timesOut (i : Nat)

def Waiter.asleep (w : Waiter) : Bool := !w.signalled

def Waiter.patient (w : Waiter) : Bool := !w.timed

/-- A waiter without a deadline that has been woken and has yet to take the lock. -/
def Waiter.due (w : Waiter) : Bool := w.signalled && w.patient

namespace ThreadQ

def new : ThreadQ α := ⟨[],false,[],[],[],[]⟩

def wake (ws : List Waiter) (i : Nat) : List Waiter :=
  ws.modify i (fun w => { w with signalled := true })

/-- `pthread_cond_signal`, as far as it may go. -/
def signal (ws : List Waiter) (chosen : List Nat) : Option (List Waiter) :=
  if (∀ i ∈ chosen, ∃ w ∈ ws[i]?, w.asleep = true) ∧
      (chosen = [] → ∀ w ∈ ws, w.asleep = false) then
    some (chosen.foldl wake ws)
  else none

def take (m : ThreadQ α) (timed : Bool) : ThreadQ α :=
  match m.q with
  | [] => { m with answers := m.answers ++ [⟨timed,none⟩] }
  | data :: rest =>
    { m with
      q := rest
      popped := m.popped ++ [data]
      answers := m.answers ++ [⟨timed,data⟩] }

def leave (m : ThreadQ α) (i : Nat) : ThreadQ α := { m with waiters := m.waiters.eraseIdx i }

def add (m : ThreadQ α) (data : Option α) : ThreadQ α :=
  if m.frozen then m else { m with q := m.q ++ [data], pushed := m.pushed ++ [data] }

def step (m : ThreadQ α) : Event α → Option (ThreadQ α)
  | .push data chosen =>
    (signal m.waiters chosen).map (fun ws => { m.add data with waiters := ws })
  | .freezethaw frozen chosen =>
    (signal m.waiters chosen).map (fun ws => { m with frozen := frozen, waiters := ws })
  | .pop timed =>
    if m.q.isEmpty then some { m with waiters := m.waiters ++ [⟨timed,false⟩] }
    else some (m.take timed)
  | .wakes i =>
    match m.waiters[i]? with
    | some w => if w.signalled then some ((m.leave i).take w.timed) else none
    | none => none
  | .spurious i =>
    match m.waiters[i]? with
    | some w => if w.signalled then none else some ((m.leave i).take w.timed)
    | none => none
  | .timesOut i =>
    match m.waiters[i]? with
    | some w =>
      if w.timed then some { m.leave i with answers := m.answers ++ [⟨true,none⟩] } else none
    | none => none

def dues (m : ThreadQ α) : Nat := m.waiters.countP Waiter.due

/-- How many of the chosen wait without a deadline. -/
def untimed (m : ThreadQ α) (chosen : List Nat) : Nat :=
  chosen.countP (fun i => m.waiters[i]?.any Waiter.patient)

/-- A pop without a deadline is woken only by the signal of a push that went
through, one pop for each push, and nobody else takes what it was woken for. -/
def Proper (m : ThreadQ α) (e : Event α) : Prop :=
  match e with
  | .push _ chosen => m.untimed chosen ≤ if m.frozen then 0 else 1
  | .freezethaw _ chosen => m.untimed chosen = 0
  | .pop _ => m.q ≠ [] → m.dues < m.q.length
  | .wakes i | .spurious i =>
    ∀ w ∈ m.waiters[i]?, w.due = false → w.timed = true ∧ (m.q ≠ [] → m.dues < m.q.length)
  | .timesOut _ => True

instance (m : ThreadQ α) (e : Event α) : Decidable (Proper m e) := by
  unfold Proper
  split <;> infer_instance

variable {m m' : ThreadQ α} {e : Event α}

theorem wake_patient (ws : List Waiter) (i j : Nat) :
    (wake ws i)[j]?.any Waiter.patient = ws[j]?.any Waiter.patient := by
  rw [wake,List.getElem?_modify]
  cases ws[j]? with
  | none => rfl
  | some w => by_cases h : i = j <;> simp [h,Waiter.patient]

theorem wake_due (ws : List Waiter) (i : Nat) :
    (wake ws i).countP Waiter.due ≤
      ws.countP Waiter.due + if ws[i]?.any Waiter.patient then 1 else 0 := by
  induction ws generalizing i with
  | nil => simp [wake]
  | cons w ws ih =>
    cases i with
    | zero =>
      obtain ⟨timed,signalled⟩ := w
      simp only [wake,List.modify_zero_cons,List.countP_cons,List.getElem?_cons_zero,Option.any_some]
      cases timed <;> simp [Waiter.due,Waiter.patient]
    | succ i =>
      have h := ih i
      simp only [wake] at h
      simp only [wake,List.modify_succ_cons,List.countP_cons,List.getElem?_cons_succ]
      omega

theorem signal_due {ws ws' : List Waiter} {chosen : List Nat} (h : signal ws chosen = some ws') :
    ws'.countP Waiter.due ≤
      ws.countP Waiter.due + chosen.countP (fun i => ws[i]?.any Waiter.patient) := by
  simp only [signal,Option.ite_none_right_eq_some,Option.some.injEq] at h
  obtain ⟨-,rfl⟩ := h
  induction chosen generalizing ws with
  | nil => simp
  | cons i chosen ih =>
    have hrest := @ih (wake ws i)
    have hone := wake_due ws i
    simp only [wake_patient] at hrest
    simp only [List.foldl_cons,List.countP_cons]
    omega

/-- What is promised: commands come out as they went in, and a pop without a deadline
comes back with one. -/
structure Delivered (m : ThreadQ α) : Prop where
  order : m.popped ++ m.q = m.pushed
  noNull : ∀ r ∈ m.answers, r.timed = false → r.value = none → none ∈ m.pushed

/-- The invariant behind it: there is an entry for every pop that is due one. -/
structure Stocked (m : ThreadQ α) : Prop where
  order : m.popped ++ m.q = m.pushed
  enough : m.dues ≤ m.q.length
  noNull : ∀ r ∈ m.answers, r.timed = false → r.value = none → none ∈ m.popped

theorem Stocked.delivered (h : Stocked m) : Delivered m where
  order := h.order
  noNull r hr ht hv := by
    rw [← h.order]
    exact List.mem_append_left _ (h.noNull r hr ht hv)

theorem take_order (timed : Bool) (h : m.popped ++ m.q = m.pushed) :
    (m.take timed).popped ++ (m.take timed).q = (m.take timed).pushed := by
  unfold take
  split
  · exact h
  · next hq => simp [← h,hq]

theorem step_order (hs : m.step e = some m') (h : m.popped ++ m.q = m.pushed) :
    m'.popped ++ m'.q = m'.pushed := by
  cases e with
  | push data chosen =>
    obtain ⟨ws,-,rfl⟩ := Option.map_eq_some_iff.mp hs
    unfold add
    split
    · exact h
    · simp [← h]
  | freezethaw frozen chosen =>
    obtain ⟨ws,-,rfl⟩ := Option.map_eq_some_iff.mp hs
    exact h
  | pop timed =>
    simp only [step] at hs
    split at hs <;> cases hs
    · exact h
    · exact take_order timed h
  | wakes i =>
    simp only [step] at hs
    split at hs
    · split at hs <;> cases hs
      exact take_order (m := m.leave i) _ h
    · cases hs
  | spurious i =>
    simp only [step] at hs
    split at hs
    · split at hs <;> cases hs
      exact take_order (m := m.leave i) _ h
    · cases hs
  | timesOut i =>
    simp only [step] at hs
    split at hs
    · split at hs <;> cases hs
      exact h
    · cases hs

theorem leave_dues {i : Nat} {w : Waiter} (hw : m.waiters[i]? = some w) :
    (m.leave i).dues + w.due.toNat = m.dues := by
  obtain ⟨hi,rfl⟩ := List.getElem?_eq_some_iff.mp hw
  have hp := (List.getElem_cons_eraseIdx_perm hi).countP_eq Waiter.due
  simp only [dues,leave]
  rw [← hp,List.countP_cons]
  cases (m.waiters[i]).due <;> simp

theorem Stocked.take (h : Stocked m) {timed : Bool} (ht : m.q = [] → timed = true)
    (hd : m.q ≠ [] → m.dues < m.q.length) : Stocked (m.take timed) := by
  refine ⟨take_order timed h.order,?_,?_⟩
  · unfold ThreadQ.take
    split
    · exact h.enough
    · next data rest hq =>
      have hlt := hd (by simp [hq])
      simp only [hq,List.length_cons] at hlt
      show m.dues ≤ rest.length
      omega
  · intro r hr hn hv
    unfold ThreadQ.take at hr ⊢
    split at hr
    · next hq =>
      rcases List.mem_append.mp hr with hr | hr
      · simpa [hq] using h.noNull r hr hn hv
      · cases List.mem_singleton.mp hr
        simp [ht hq] at hn
    · next data rest hq =>
      show none ∈ m.popped ++ [data]
      rcases List.mem_append.mp hr with hr | hr
      · exact List.mem_append_left _ (h.noNull r hr hn hv)
      · cases List.mem_singleton.mp hr
        simp only at hv
        simp [hv]

theorem Stocked.leave (h : Stocked m) (i : Nat) : Stocked (m.leave i) := by
  refine ⟨h.order,?_,h.noNull⟩
  have hle : (m.leave i).dues ≤ m.dues := (List.eraseIdx_sublist _ i).countP_le
  exact Nat.le_trans hle h.enough

/-- A pop that wakes takes its own entry, or has a deadline and leaves enough. -/
theorem Stocked.woken (h : Stocked m) {i : Nat} {w : Waiter} (hw : m.waiters[i]? = some w)
    (hp : w.due = false → w.timed = true ∧ (m.q ≠ [] → m.dues < m.q.length)) :
    Stocked ((m.leave i).take w.timed) := by
  have hl := leave_dues hw
  have he := h.enough
  cases hd : w.due with
  | true =>
    simp only [hd,Bool.toNat_true] at hl
    refine (h.leave i).take (fun hq => ?_) (fun _ => ?_)
    · simp only [ThreadQ.leave] at hq
      simp [hq] at he
      omega
    · show (m.leave i).dues < m.q.length
      omega
  | false =>
    simp only [hd,Bool.toNat_false] at hl
    refine (h.leave i).take (fun _ => (hp hd).1) (fun hq => ?_)
    have hlt := (hp hd).2 hq
    show (m.leave i).dues < m.q.length
    omega

theorem Stocked.step (h : Stocked m) (ho : Proper m e) (hs : m.step e = some m') :
    Stocked m' := by
  cases e with
  | push data chosen =>
    obtain ⟨ws,hws,rfl⟩ := Option.map_eq_some_iff.mp hs
    have hdue := signal_due hws
    have he := h.enough
    refine ⟨step_order hs h.order,?_,?_⟩
    · show ws.countP Waiter.due ≤ (m.add data).q.length
      simp only [Proper,untimed] at ho
      unfold add
      split at ho
      · next hf =>
        simp only [hf,if_true]
        simp only [dues] at he
        omega
      · next hf =>
        simp only [hf,Bool.false_eq_true,if_false,List.length_append,List.length_singleton]
        simp only [dues] at he
        omega
    · intro r hr
      have ha : (m.add data).answers = m.answers := by
        unfold add
        split <;> rfl
      have hp : (m.add data).popped = m.popped := by
        unfold add
        split <;> rfl
      simp only [ha] at hr
      simp only [hp]
      exact h.noNull r hr
  | freezethaw frozen chosen =>
    obtain ⟨ws,hws,rfl⟩ := Option.map_eq_some_iff.mp hs
    have hdue := signal_due hws
    have he := h.enough
    simp only [Proper,untimed] at ho
    refine ⟨h.order,?_,h.noNull⟩
    show ws.countP Waiter.due ≤ m.q.length
    simp only [dues] at he
    omega
  | pop timed =>
    simp only [ThreadQ.step] at hs
    split at hs <;> cases hs
    · refine ⟨h.order,?_,h.noNull⟩
      have he := h.enough
      simpa [dues,Waiter.due] using he
    · next hq =>
      have hne : m.q ≠ [] := by simpa using hq
      exact h.take (fun hnil => absurd hnil hne) ho
  | wakes i | spurious i =>
    simp only [ThreadQ.step] at hs
    split at hs
    · next w hw =>
      split at hs <;> cases hs
      exact h.woken hw (ho w hw)
    · cases hs
  | timesOut i =>
    simp only [ThreadQ.step] at hs
    split at hs
    · split at hs <;> cases hs
      have hl := h.leave i
      refine ⟨hl.order,hl.enough,fun r hr ht hv => ?_⟩
      rcases List.mem_append.mp hr with hr | hr
      · exact h.noNull r hr ht hv
      · cases List.mem_singleton.mp hr
        cases ht
    · cases hs

theorem Stocked.new : Stocked (new : ThreadQ α) where
  order := rfl
  enough := Nat.le_refl _
  noNull r hr := by cases hr

/-- Commands come out once and in order in every run; in a run without a stray wakeup
no pop that waits for a command comes back without one. -/
theorem pops_what_was_pushed (m : ThreadQ α) (hr : Reach step free new m) :
    m.popped ++ m.q = m.pushed ∧ (Reach step Proper new m → Delivered m) :=
  ⟨hr.invariant (I := fun m => m.popped ++ m.q = m.pushed) rfl
      (fun _ _ _ h _ hs => step_order hs h),
    fun hp => (hp.invariant (I := Stocked) Stocked.new (fun _ _ _ h ho hs => h.step ho hs)).delivered⟩

/-- A pop that sleeps until it is sent a command. -/
def woken : List (Event Nat) := [.pop false,.push (some 7) [0],.wakes 0]

theorem woken_for_a_command : ∃ m : ThreadQ Nat, Reach step Proper new m ∧
    m.answers = [⟨false,some 7⟩] ∧ m.popped ++ m.q = m.pushed ∧ Delivered m := by
  obtain ⟨m,hm,ha⟩ := reach_of_any step Proper (new : ThreadQ Nat) woken
    (fun m => m.answers = [⟨false,some 7⟩]) (by decide)
  have h := pops_what_was_pushed m (hm.mono (fun _ _ _ => trivial))
  exact ⟨m,hm,ha,h.1,h.2 hm⟩

/-- The condition variable wakes the pop for nothing, and it returns null. -/
theorem woken_for_nothing :
    ¬ ∀ (m : ThreadQ Nat), Reach step free new m → Delivered m := by
  intro h
  obtain ⟨m,hm,ha⟩ := reach_of_any step free (new : ThreadQ Nat) [.pop false,.spurious 0]
    (fun m => m.answers = [⟨false,none⟩] ∧ m.pushed = []) (by decide)
  have hn := (h m hm).noNull ⟨false,none⟩ (by simp [ha.1]) rfl rfl
  simp [ha.2] at hn

end ThreadQ
end VkMiner.Queue
