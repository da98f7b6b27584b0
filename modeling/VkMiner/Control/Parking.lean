import VkMiner.Control.Sound
set_option autoImplicit false

/-! Who is inside the barrier, and on which terms: while a change is applied,
and when one lands in a parked state. -/

namespace VkMiner.Control
open Machine Runs

variable {opt : Options} {m m' : Machine} {e : Event} {mv : Move} {f : PoolRequest → Bool}

/-- No deadline is judged late while a change of the kind `f` is being applied. -/
def InTime (f : PoolRequest → Bool) (opt : Options) (m : Machine) (e : Event) : Prop :=
  e ≠ .releaseAll ∧ (judges opt e = true → m.apply.applies f = true → m.now < m.deadline)

instance (f : PoolRequest → Bool) (opt : Options) (m : Machine) (e : Event) :
    Decidable (InTime f opt m e) :=
  inferInstanceAs (Decidable (_ ∧ _))

def Underway (f : PoolRequest → Bool) (m : Machine) : Prop :=
  m.apply.applies f = true →
    m.poolSwitch = true ∧ m.pool.applied = true ∧ m.pool.done = false

def Timely (f : PoolRequest → Bool) (m : Machine) (mv : Move) : Prop :=
  Keeps m mv ∧
    match mv with
    | .landsUnanswered _ | .expires _ | .timesOut _ _ => m.apply.applies f = false
    | _ => True

theorem JudgedAt.quiet {m₁ : Machine} (h : JudgedAt opt m e m₁) (ht : InTime f opt m e) :
    m₁.apply.applies f = false := by
  refine Bool.eq_false_iff.mpr (fun ha => ?_)
  have hl := h.late
  have hn := ht.2 h.judges (h.apply ▸ ha)
  omega

theorem Within.timely {m₁ : Machine} (h : Within opt m e m₁ mv) (ht : InTime f opt m e) :
    Timely f m₁ mv := by
  refine ⟨h.keeps ht.1,?_⟩
  cases mv with
  | landsUnanswered cause => exact h.1.quiet ht
  | expires cause => exact h.1.quiet ht
  | timesOut want own => exact h.1.quiet ht
  | _ => trivial

theorem Sound.quiet_of_idle (h : Sound m) (hu : Underway f m) (hm : m.mutating = false) :
    m.apply.applies f = false := by
  refine Bool.eq_false_iff.mpr (fun ha => ?_)
  simp [h.phased.mutating (hu ha).1] at hm

theorem Underway.settles (hu : Underway f m) (hs : m.settles = true) :
    m.apply.applies f = false := by
  refine Bool.eq_false_iff.mpr (fun ha => ?_)
  obtain ⟨hp,-,hd⟩ := hu ha
  simp [Machine.settles,hp,hd] at hs

theorem underway_of_quiet (h : m.apply.applies f = false) : Underway f m := by
  intro ha
  simp [h] at ha

theorem Underway.fine (h : Sound m) (hu : Underway f m) (hk : Timely f m mv)
    (hs : fine opt m mv = some m') : Underway f m' := by
  cases mv with
  | tick | notes | explains | records =>
    cases hs
    exact hu
  | sees | reads | enters | leaves | turnsBack =>
    simp only [Control.fine,Option.ite_none_right_eq_some,Option.some.injEq] at hs
    obtain ⟨-,rfl⟩ := hs
    exact hu
  | handsOver =>
    simp only [Control.fine,Option.ite_none_right_eq_some,Option.some.injEq] at hs
    obtain ⟨-,rfl⟩ := hs
    exact hu
  | lands =>
    simp only [Control.fine,Option.ite_none_right_eq_some,Option.some.injEq] at hs
    obtain ⟨hset,rfl⟩ := hs
    refine underway_of_quiet ?_
    unfold Machine.land
    split <;> exact hu.settles hset
  | landsUnanswered | expires | timesOut =>
    simp only [Control.fine,Option.ite_none_right_eq_some,Option.some.injEq] at hs
    obtain ⟨-,rfl⟩ := hs
    exact underway_of_quiet hk.2
  | postsPool | postsRun =>
    simp only [Control.fine,Option.ite_none_right_eq_some,Option.some.injEq] at hs
    obtain ⟨hm,rfl⟩ := hs
    exact underway_of_quiet (h.quiet_of_idle hu (by first | exact hm | exact hm.1))
  | takes =>
    simp only [Control.fine,Option.ite_none_right_eq_some,Option.some.injEq] at hs
    obtain ⟨⟨-,hq⟩,rfl⟩ := hs
    obtain ⟨hp,-,hd⟩ := h.phased.handed hq
    exact fun _ => ⟨hp,rfl,hd⟩
  | refuses why =>
    simp only [Control.fine] at hs
    split at hs
    · simp only [Option.ite_none_left_eq_some,Option.some.injEq] at hs
      obtain ⟨-,rfl⟩ := hs
      exact underway_of_quiet rfl
    · cases hs
  | moves =>
    simp only [Control.fine] at hs
    split at hs
    · rename_i p hook k ha
      cases hs
      intro hf
      exact hu (by rw [ha]; exact hf)
    · cases hs
  | writes | returns =>
    simp only [Control.fine] at hs
    split at hs
    · cases hs
      exact underway_of_quiet rfl
    · cases hs
  | readsHold =>
    simp only [Control.fine] at hs
    split at hs
    · cases hs
      refine underway_of_quiet ?_
      simp only
      split <;> rfl
    · cases hs
  | connects =>
    simp only [Control.fine,Option.ite_none_right_eq_some,Option.some.injEq] at hs
    obtain ⟨⟨hi,-⟩,rfl⟩ := hs
    refine underway_of_quiet ?_
    simp [answerPool,hi,Apply.applies]
  | releases => exact hk.1.elim

structure Tracked (f : PoolRequest → Bool) (m : Machine) : Prop where
  sound : Sound m
  underway : Underway f m

theorem Tracked.step (h : Tracked f m) (ht : InTime f opt m e) (hs : step opt m e = some m') :
    Tracked f m' :=
  (step_moves hs).invariant h fun _ _ _ hm hw hf =>
    have hk := hw.timely ht
    ⟨hm.sound.fine hk.1 hf,hm.underway.fine hm.sound hk hf⟩

theorem tracked_reach {n : Nat} {p : Profile} {hook : Bool}
    (h : Reach (Control.step opt) (InTime f opt) (start n p hook) m) : Tracked f m :=
  h.invariant ⟨sound_start n p hook,underway_of_quiet rfl⟩
    (fun _ _ _ hm ht hs => hm.step ht hs)

/-- Every worker is inside `control_park`, counted under the current generation. -/
def Held (m : Machine) : Prop := ∀ w ∈ m.threads, w.isParkedIn m.parkGen = true

instance (m : Machine) : Decidable (Held m) :=
  inferInstanceAs (Decidable (∀ w ∈ m.threads, w.isParkedIn m.parkGen = true))

/-- What an algorithm change counts on while it is being applied. -/
def HeldWhileApplying (m : Machine) : Prop :=
  m.apply.applies algoChange = true → Held m ∧ m.staysParked m.parkGen = true

instance (m : Machine) : Decidable (HeldWhileApplying m) :=
  inferInstanceAs (Decidable (_ → _))

/-- While an algorithm change is being applied every worker stays inside the
barrier, in every run in which no deadline is judged late meanwhile. -/
theorem held_while_applying (opt : Options) (n : Nat) (p : Profile) (hook : Bool) (m : Machine)
    (h : Reach (step opt) (InTime algoChange opt) (start n p hook) m) :
    HeldWhileApplying m := by
  intro ha
  obtain ⟨hs,hu⟩ := tracked_reach h
  obtain ⟨hp,hap,-⟩ := hu ha
  exact ⟨hs.counted.allParked_iff.mp (hs.phased.gathered hp (.inr hap)),hs.stays hp⟩

def stock : Options := ⟨true,30000,15,true⟩

def kawpow : Profile := ⟨ascii "kawpow",ascii "stratum+tcp://a:1",ascii "w",ascii "x"⟩

def switchTaken : List Event :=
  [.algoRequest (ascii "sha256d") (ascii "stratum+tcp://b:2") [] [] 1000 none,.seesPark 0,
    .readsTerms 0,.parks 0,.takes]

def polledLate : List Event :=
  switchTaken ++ [.tick (seconds 1),.callerWakes 0,.tick (seconds 29),.status,.wakes 0]

theorem held_during_a_switch : ∃ m,
    Reach (step stock) (InTime algoChange stock) (start 1 kawpow true) m ∧
      m.apply.applies algoChange = true ∧ HeldWhileApplying m := by
  obtain ⟨m,hm,ha⟩ := reach_of_any (step stock) (InTime algoChange stock)
    (start 1 kawpow true) switchTaken (fun m => m.apply.applies algoChange = true) (by decide)
  exact ⟨m,hm,ha,held_while_applying stock 1 kawpow true m hm⟩

/-- A late poll settles the change under the hook, and the worker goes mining. -/
theorem late_poll_releases : ¬ ∀ (opt : Options) (n : Nat) (p : Profile) (hook : Bool)
    (m : Machine), Reach (step opt) Stays (start n p hook) m → HeldWhileApplying m := by
  intro h
  obtain ⟨m,hm,ha⟩ := reach_of_any (step stock) Stays (start 1 kawpow true) polledLate
    (fun m => ¬ HeldWhileApplying m) (by decide)
  exact ha (h stock 1 kawpow true m hm)

def parksOnTerms (m : Machine) : Event → Bool
  | .parks i =>
    match m.threads[i]? with
    | some (.leaving r) => m.state ≠ .switching || m.pending = .running || r == m.retainShared
    | _ => true
  | _ => true

/-- A profile change that names a parked state finds the miner parked on the
terms of that state, or not stopped when it names `paused`. -/
def namesTerms (opt : Options) (m : Machine) (e : Event) : Bool :=
  !posts opt m e ||
    match e.names with
    | some .paused => (m.catchUp opt).state ≠ .stopped
    | some .stopped => (m.catchUp opt).state = .stopped
    | _ => true

def OnTerms (opt : Options) (m : Machine) (e : Event) : Prop :=
  e ≠ .releaseAll ∧ parksOnTerms m e = true ∧ namesTerms opt m e = true

instance (opt : Options) (m : Machine) (e : Event) : Decidable (OnTerms opt m e) :=
  inferInstanceAs (Decidable (_ ∧ _ ∧ _))

/-- A change that landed in a parked state found every worker inside, under the
generation of the moment and on the terms of that state. -/
def Ending.KeptTerms (e : Ending) : Prop :=
  e.outcome.isLanded = true → (e.triple.run = .paused ∨ e.triple.run = .stopped) →
    ∀ w ∈ e.threads, w = .parked e.parkGen (e.triple.run = .paused)

instance (e : Ending) : Decidable e.KeptTerms := inferInstanceAs (Decidable (_ → _ → _))

structure Termed (m : Machine) : Prop where
  terms : m.state = .switching → m.pending ≠ .running →
    m.retainShared = decide (m.pending = .paused)
  kept : m.state = .switching → m.pending ≠ .running →
    ∀ r, .parked m.parkGen r ∈ m.threads → r = m.retainShared
  landed : ∀ e ∈ m.endings, e.KeptTerms

def Faithful (m : Machine) (mv : Move) : Prop :=
  Keeps m mv ∧
    match mv with
    | .enters _ r => m.state = .switching → m.pending ≠ .running → r = m.retainShared
    | .postsPool _ _ _ _ _ (some .paused) => m.state ≠ .stopped
    | .postsPool _ _ _ _ _ (some .stopped) => m.state = .stopped
    | _ => True

theorem Within.faithful {m₁ : Machine} (h : Within opt m e m₁ mv)
    (hf : ∀ i r, mv = .enters i r → m₁.threads[i]? = some (.leaving r)) (ht : OnTerms opt m e) :
    Faithful m₁ mv := by
  refine ⟨h.keeps ht.1,?_⟩
  cases mv with
  | enters i r =>
    obtain ⟨rfl,rfl⟩ := h
    have hp := ht.2.1
    simp only [parksOnTerms,hf i r rfl,Bool.or_eq_true,decide_eq_true_eq,beq_iff_eq] at hp
    intro hs hr
    simpa [hs,hr] using hp
  | postsPool url user pass algo restore want =>
    obtain ⟨rfl,rfl,hq⟩ := h
    have hn := ht.2.2
    simp only [namesTerms,hq,Bool.not_true,Bool.false_or] at hn
    split at hn <;> simp_all
  | _ => trivial

theorem Termed.logged (h : Termed m) (hs : Sound m) (hst : m.state = .switching)
    (ha : m.pending ≠ .running → m.allParkedLocked = true) {e : Ending}
    (ht : e.threads = m.threads) (hg : e.parkGen = m.parkGen) (hr : e.triple.run = m.pending) :
    e.KeptTerms := by
  intro _ hrun w hw
  have hne : m.pending ≠ .running := by
    rw [hr] at hrun
    rcases hrun with hrun | hrun <;> simp [hrun]
  have hall := hs.counted.allParked_iff.mp (ha hne)
  rw [ht] at hw
  have hin := hall w hw
  cases w with
  | parked g r =>
    simp only [Worker.isParkedIn,beq_iff_eq] at hin
    subst hin
    rw [hg,h.kept hst hne r hw,h.terms hst hne,hr]
  | _ => simp [Worker.isParkedIn] at hin

theorem Termed.ended (hst : m.state ≠ .switching) (hl : ∀ e ∈ m.endings, e.KeptTerms) :
    Termed m :=
  ⟨fun h => absurd h hst,fun h => absurd h hst,hl⟩

theorem Termed.rollback (h : Termed m) (hv : m.previous ≠ .switching) (cause : Option Nat)
    {o : Outcome} (ho : o.isLanded = false) (why : CStr) :
    Termed (m.rollbackLocked cause o why) := by
  refine Termed.ended ?_ ?_
  · simpa [rollbackLocked,setTerms,setStateLocked,dropPool] using hv
  · intro e he
    simp only [rollbackLocked,setTerms,setStateLocked,dropPool] at he
    split at he
    · rcases List.mem_append.mp he with he | he
      · exact h.landed e he
      · cases List.mem_singleton.mp he
        intro hland
        simp [ho] at hland
    · exact h.landed e he

theorem Termed.commit (h : Termed m) (hs : Sound m) (hst : m.state = .switching)
    (ha : m.pending ≠ .running → m.allParkedLocked = true) (m₁ : Machine)
    (ht : m₁.threads = m.threads) (hg : m₁.parkGen = m.parkGen) (hp : m₁.pending = m.pending)
    (he : m₁.endings = m.endings) (cause : Option Nat) (answered : Bool) :
    Termed (m₁.commit cause answered) := by
  refine Termed.ended ?_ ?_
  · simpa [Machine.commit,logEnding,setTerms,setStateLocked,hp] using hs.phased.pending
  · intro e hm
    simp only [Machine.commit,logEnding,setTerms,setStateLocked] at hm
    rcases List.mem_append.mp hm with hm | hm
    · exact h.landed e (he ▸ hm)
    · cases List.mem_singleton.mp hm
      exact h.logged hs hst ha ht hg hp

theorem Sound.settles_parked (h : Sound m) (hset : m.settles = true)
    (hr : m.pending ≠ .running) : m.allParkedLocked = true := by
  simp only [settles,Bool.and_eq_true,decide_eq_true_eq] at hset
  obtain ⟨-,hset⟩ := hset
  split at hset
  · rename_i hp
    simp only [Bool.and_eq_true,Bool.or_eq_true] at hset
    rcases hset.2 with hq | hk
    · exact h.phased.gathered hp hq
    · exact hk
  · simpa [landedLocked,hr] using hset

theorem Termed.same (h : Termed m) (hs : m'.state = m.state) (hp : m'.pending = m.pending)
    (hr : m'.retainShared = m.retainShared) (hg : m'.parkGen = m.parkGen)
    (ht : ∀ r, .parked m.parkGen r ∈ m'.threads → .parked m.parkGen r ∈ m.threads)
    (he : m'.endings = m.endings) : Termed m' := by
  refine ⟨?_,?_,by rw [he]; exact h.landed⟩
  · rw [hs,hp,hr]
    exact h.terms
  · rw [hs,hp,hr,hg]
    exact fun hst hne r hm => h.kept hst hne r (ht r hm)

theorem Termed.outside (h : Termed m) {i : Nat} {w : Worker} (hw : w.isParked = false) :
    Termed { m with threads := m.threads.set i w } := by
  refine h.same rfl rfl rfl rfl ?_ rfl
  intro r hm
  rcases List.mem_or_eq_of_mem_set hm with hm | rfl
  · exact hm
  · cases hw

theorem Termed.enterPark (h : Termed m) {i : Nat} {r : Bool}
    (hr : m.state = .switching → m.pending ≠ .running → r = m.retainShared) :
    Termed (m.enterPark i r) := by
  refine ⟨h.terms,?_,h.landed⟩
  intro hst hne r' hm
  rcases List.mem_or_eq_of_mem_set hm with hm | he
  · exact h.kept hst hne r' hm
  · cases he
    exact hr hst hne

theorem Counted.nobody (h : Counted m) (r : Bool) : .parked (m.parkGen+1) r ∉ m.threads := by
  intro hm
  have := h.gens _ r hm
  omega

theorem Termed.postPool (h : Termed m) (hs : Sound m) (hm : m.mutating = false)
    (url user pass algo : CStr) (restore : Bool) {want : Option ControlState}
    (hf : Faithful m (.postsPool url user pass algo restore want)) :
    Termed (m.postPoolLocked opt url user pass algo restore want) := by
  have hst := hs.phased.landed hm
  refine ⟨?_,fun _ _ r hr => absurd hr (hs.counted.nobody r),h.landed⟩
  intro _ hne
  simp only [postPoolLocked,setStateLocked] at hne ⊢
  obtain ⟨hk,hf⟩ := hf
  rcases want with _ | w
  · simp only [Option.getD_none] at hne ⊢
    cases hs : m.state <;> simp_all
  · cases w <;> simp_all [Keeps]

theorem Termed.postRun (h : Termed m) (hs : Sound m) (want : ControlState) :
    Termed (m.postRunLocked opt want) := by
  by_cases hw : want = .running
  · exact ⟨fun _ hne => absurd hw hne,fun _ hne => absurd hw hne,h.landed⟩
  · refine ⟨fun _ _ => rfl,?_,h.landed⟩
    intro _ _ r hm
    simp only [postRunLocked,setStateLocked,hw,if_false] at hm
    exact absurd hm (hs.counted.nobody r)

theorem Termed.fine (h : Termed m) (hs : Sound m) (hk : Faithful m mv)
    (hf : fine opt m mv = some m') : Termed m' := by
  cases mv with
  | tick | notes | explains | records =>
    cases hf
    exact h.same rfl rfl rfl rfl (fun _ hm => hm) rfl
  | sees | reads =>
    simp only [Control.fine,Option.ite_none_right_eq_some,Option.some.injEq] at hf
    obtain ⟨-,rfl⟩ := hf
    exact h.outside rfl
  | enters i r =>
    simp only [Control.fine,Option.ite_none_right_eq_some,Option.some.injEq] at hf
    obtain ⟨-,rfl⟩ := hf
    exact h.enterPark hk.2
  | leaves i gen =>
    simp only [Control.fine,Option.ite_none_right_eq_some,Option.some.injEq] at hf
    obtain ⟨-,rfl⟩ := hf
    exact (h.outside (i := i) (w := .mining) rfl).same rfl rfl rfl rfl (fun _ hm => hm) rfl
  | turnsBack i =>
    simp only [Control.fine,Option.ite_none_right_eq_some] at hf
    simp [hs.counted.open_] at hf
  | handsOver | takes | connects =>
    simp only [Control.fine,Option.ite_none_right_eq_some,Option.some.injEq] at hf
    obtain ⟨-,rfl⟩ := hf
    exact h.same rfl rfl rfl rfl (fun _ hm => hm) rfl
  | lands =>
    simp only [Control.fine,Option.ite_none_right_eq_some,Option.some.injEq] at hf
    obtain ⟨hset,rfl⟩ := hf
    have hst : m.state = .switching := by
      simp only [settles,Bool.and_eq_true,decide_eq_true_eq] at hset
      exact hset.1
    unfold Machine.land
    split
    · exact h.commit hs hst (hs.settles_parked hset) m.dropPool rfl rfl rfl rfl _ _
    · exact h.commit hs hst (hs.settles_parked hset) m rfl rfl rfl rfl _ _
  | landsUnanswered cause =>
    simp only [Control.fine,Option.ite_none_right_eq_some,Option.some.injEq] at hf
    obtain ⟨⟨hst,-,hp,ha⟩,rfl⟩ := hf
    have hall : m.allParkedLocked = true := hs.phased.gathered hp (.inr ha)
    exact (h.commit hs hst (fun _ => hall) (m.answerPool false).dropPool rfl rfl rfl rfl
      cause false).same rfl rfl rfl rfl (fun _ hm => hm) rfl
  | expires cause =>
    simp only [Control.fine,Option.ite_none_right_eq_some,Option.some.injEq] at hf
    obtain ⟨-,rfl⟩ := hf
    exact h.rollback hs.phased.previous _ rfl _
  | timesOut want own =>
    simp only [Control.fine,Option.ite_none_right_eq_some,Option.some.injEq] at hf
    obtain ⟨-,rfl⟩ := hf
    exact h.rollback hs.phased.previous _ rfl _
  | postsPool url user pass algo restore want =>
    simp only [Control.fine,Option.ite_none_right_eq_some,Option.some.injEq] at hf
    obtain ⟨hm,rfl⟩ := hf
    exact h.postPool hs hm url user pass algo restore hk
  | postsRun want =>
    simp only [Control.fine,Option.ite_none_right_eq_some,Option.some.injEq] at hf
    obtain ⟨-,rfl⟩ := hf
    exact h.postRun hs want
  | refuses why =>
    simp only [Control.fine] at hf
    split at hf
    · simp only [Option.ite_none_left_eq_some,Option.some.injEq] at hf
      obtain ⟨-,rfl⟩ := hf
      have hm : Termed m.markRefused := h.same rfl rfl rfl rfl (fun _ hm => hm) rfl
      exact hm.rollback hs.phased.previous _ rfl _
    · cases hf
  | moves | writes | readsHold | returns =>
    simp only [Control.fine] at hf
    split at hf
    · cases hf
      exact h.same rfl rfl rfl rfl (fun _ hm => hm) rfl
    · cases hf
  | releases => exact hk.1.elim

theorem enters_leaving {i : Nat} {r : Bool} (h : fine opt m (.enters i r) = some m') :
    m.threads[i]? = some (.leaving r) := by
  simp only [fine,Option.ite_none_right_eq_some] at h
  exact h.1.1

structure OnRecord (m : Machine) : Prop where
  sound : Sound m
  termed : Termed m

theorem OnRecord.step (h : OnRecord m) (ht : OnTerms opt m e) (hs : step opt m e = some m') :
    OnRecord m' :=
  (step_moves hs).invariant h fun _ _ _ hm hw hf =>
    have hk := hw.faithful (fun _ _ he => enters_leaving (he ▸ hf)) ht
    ⟨hm.sound.fine hk.1 hf,hm.termed.fine hm.sound hk hf⟩

theorem termed_start (n : Nat) (p : Profile) (hook : Bool) : Termed (start n p hook) :=
  Termed.ended (by simp [start]) (by simp [start])

def CountsNest (m : Machine) : Prop :=
  0 ≤ m.parkedGen ∧ m.parkedGen ≤ m.parked ∧ m.parked ≤ m.workers

/-- The counts nest in every run. In a run whose workers park on the terms they
read, and whose profile changes name no state on other terms, every change that
landed in a parked state found everyone inside on its terms. -/
theorem landed_on_its_terms (opt : Options) (n : Nat) (p : Profile) (hook : Bool) (m : Machine)
    (h : Reach (step opt) Stays (start n p hook) m) :
    CountsNest m ∧
      (Reach (step opt) (OnTerms opt) (start n p hook) m → ∀ e ∈ m.endings, e.KeptTerms) := by
  have hc := (sound_reach h).counted
  refine ⟨⟨hc.parkedGen_nonneg,hc.parkedGen_le,hc.parked_le⟩,?_⟩
  intro hr
  have ho : OnRecord m := hr.invariant ⟨sound_start n p hook,termed_start n p hook⟩
    (fun _ _ _ hm ht hs => hm.step ht hs)
  exact ho.termed.landed

/-- A pause is taken up by one worker and rolled back before it has parked; it
parks, as it read, in the stop that was asked for next. -/
def pausedThenStopped : List Event :=
  [.request .paused 1,.seesPark 0,.readsTerms 0,.tick (seconds 30),.status,
    .request .stopped 0,.parks 0]

def pausedAtOnce : List Event := [.request .paused 0,.seesPark 0,.readsTerms 0,.parks 0]

theorem paused_on_its_terms : ∃ m, Reach (step stock) Stays (start 1 kawpow true) m ∧
    m.endings.length = 1 ∧ CountsNest m ∧ ∀ e ∈ m.endings, e.KeptTerms := by
  obtain ⟨m,hm,ha⟩ := reach_of_any (step stock) (OnTerms stock) (start 1 kawpow true)
    pausedAtOnce (fun m => m.endings.length = 1) (by decide)
  have hs : Reach (step stock) Stays (start 1 kawpow true) m := hm.mono (fun _ _ h => h.1)
  have h := landed_on_its_terms stock 1 kawpow true m hs
  exact ⟨m,hs,ha,h.1,h.2 hm⟩

/-- A stopped miner keeps the table that a pause, since replaced, let it keep. -/
theorem stopped_with_the_table : ¬ ∀ (opt : Options) (n : Nat) (p : Profile) (hook : Bool)
    (m : Machine), Reach (step opt) Stays (start n p hook) m →
      CountsNest m ∧ ∀ e ∈ m.endings, e.KeptTerms := by
  intro h
  obtain ⟨m,hm,ha⟩ := reach_of_any (step stock) Stays (start 1 kawpow true) pausedThenStopped
    (fun m => ¬ ∀ e ∈ m.endings, e.KeptTerms) (by decide)
  exact ha (h stock 1 kawpow true m hm).2

end VkMiner.Control
