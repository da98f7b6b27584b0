import VkMiner.Control.Sections
set_option autoImplicit false

/-! What holds of the barrier in every run that does not shut the miner down:
the counts are the threads', and the flags agree with the run state. -/

namespace VkMiner.Control
open Machine Runs

/-- The counters under the lock count the threads inside `control_park`. -/
structure Counted (m : Machine) : Prop where
  open_ : m.shutdown = false
  workers : m.workers = m.threads.length
  parked : m.parked = m.threads.countP Worker.isParked
  parkedGen : m.parkedGen = m.threads.countP (Worker.isParkedIn m.parkGen)
  gens : ∀ g r, .parked g r ∈ m.threads → g ≤ m.parkGen

/-- The flags of a change in flight, against the run state that is reported. -/
structure Phased (m : Machine) : Prop where
  busy : m.mutating = true ↔ m.state = .switching
  previous : m.previous ≠ .switching
  pending : m.pending ≠ .switching
  poolBusy : m.poolSwitch = true → m.state = .switching
  handed : m.pool.pending = true →
    m.poolSwitch = true ∧ m.pool.applied = false ∧ m.pool.done = false
  gathered : m.poolSwitch = true → (m.pool.pending = true ∨ m.pool.applied = true) →
    m.allParkedLocked = true
  held : m.poolSwitch = true → m.parkRequested = true
  taken : m.poolSwitch = true → m.pool.done = true → m.pool.applied = true

structure Sound (m : Machine) : Prop where
  counted : Counted m
  phased : Phased m

def Keeps (_ : Machine) : Move → Prop
  | .releases => False
  | .postsPool _ _ _ _ _ want => want ≠ some .switching
  | _ => True

variable {opt : Options} {m m' : Machine} {e : Event} {mv : Move}

theorem isParkedIn_imp {g : Nat} {w : Worker} (h : w.isParkedIn g = true) :
    w.isParked = true := by
  cases w <;> simp_all [Worker.isParkedIn,Worker.isParked]

theorem Counted.parkedGen_le (h : Counted m) : m.parkedGen ≤ m.parked := by
  rw [h.parkedGen,h.parked]
  exact Int.ofNat_le.mpr (List.countP_mono_left fun w _ hw => isParkedIn_imp hw)

theorem Counted.parked_le (h : Counted m) : m.parked ≤ m.workers := by
  rw [h.parked,h.workers]
  exact Int.ofNat_le.mpr List.countP_le_length

theorem Counted.parkedGen_nonneg (h : Counted m) : 0 ≤ m.parkedGen := by
  rw [h.parkedGen]
  omega

theorem Counted.allParked_iff (h : Counted m) :
    m.allParkedLocked = true ↔ ∀ w ∈ m.threads, w.isParkedIn m.parkGen = true := by
  have hle : m.threads.countP (Worker.isParkedIn m.parkGen) ≤ m.threads.length :=
    List.countP_le_length
  rw [← List.countP_eq_length]
  simp only [allParkedLocked,h.workers,h.parkedGen,decide_eq_true_eq,ge_iff_le,Int.ofNat_le]
  omega

theorem Counted.outside (h : Counted m) {i : Nat} {w w' : Worker}
    (hi : m.threads[i]? = some w) (hw : w.isParked = false) (hw' : w'.isParked = false) :
    Counted { m with threads := m.threads.set i w' } := by
  obtain ⟨hlt,hget⟩ := List.getElem?_eq_some_iff.mp hi
  have hp : ∀ (p : Worker → Bool), p w = false → p w' = false →
      (m.threads.set i w').countP p = m.threads.countP p := by
    intro p hpw hpw'
    rw [List.countP_set hlt,hget]
    simp [hpw,hpw']
  have hout : ∀ {v : Worker}, v.isParked = false → v.isParkedIn m.parkGen = false := by
    intro v hv
    cases v <;> simp_all [Worker.isParked,Worker.isParkedIn]
  refine ⟨h.open_,?_,?_,?_,?_⟩
  · simp [h.workers]
  · show m.parked = _
    rw [hp _ hw hw',h.parked]
  · show m.parkedGen = _
    rw [hp _ (hout hw) (hout hw'),h.parkedGen]
  · intro g r hm
    rcases List.mem_or_eq_of_mem_set hm with hm | rfl
    · exact h.gens g r hm
    · simp [Worker.isParked] at hw'

theorem Counted.enterPark (h : Counted m) {i : Nat} {retains : Bool}
    (hi : m.threads[i]? = some (.leaving retains)) : Counted (m.enterPark i retains) := by
  obtain ⟨hlt,hget⟩ := List.getElem?_eq_some_iff.mp hi
  refine ⟨h.open_,?_,?_,?_,?_⟩
  · simp [Machine.enterPark,h.workers]
  · simp only [Machine.enterPark]
    rw [List.countP_set hlt,hget,h.parked]
    simp [Worker.isParked]
  · simp only [Machine.enterPark]
    rw [List.countP_set hlt,hget,h.parkedGen]
    simp [Worker.isParkedIn]
  · intro g r hm
    rcases List.mem_or_eq_of_mem_set hm with hm | he
    · exact h.gens g r hm
    · cases he
      exact Nat.le_refl _

theorem Counted.leavePark (h : Counted m) {i gen : Nat} {r : Bool}
    (hi : m.threads[i]? = some (.parked gen r)) : Counted (m.leavePark i gen) := by
  obtain ⟨hlt,hget⟩ := List.getElem?_eq_some_iff.mp hi
  have hmem : .parked gen r ∈ m.threads := List.mem_of_getElem? hi
  have hpos : 0 < m.threads.countP Worker.isParked :=
    List.countP_pos_iff.mpr ⟨_,hmem,rfl⟩
  refine ⟨h.open_,?_,?_,?_,?_⟩
  · simp [Machine.leavePark,h.workers]
  · simp only [Machine.leavePark]
    rw [List.countP_set hlt,hget,h.parked]
    simp only [Worker.isParked,if_true,Bool.false_eq_true,if_false]
    omega
  · simp only [Machine.leavePark]
    rw [List.countP_set hlt,hget,h.parkedGen]
    by_cases hg : m.parkGen = gen
    · have hposg : 0 < m.threads.countP (Worker.isParkedIn m.parkGen) :=
        List.countP_pos_iff.mpr ⟨_,hmem,by simp [Worker.isParkedIn,hg]⟩
      simp only [hg,Worker.isParkedIn,beq_self_eq_true,if_true,Bool.false_eq_true,if_false]
      rw [hg] at hposg
      omega
    · have hg' : (gen == m.parkGen) = false := by simpa using fun h => hg h.symm
      simp [hg,Worker.isParkedIn,hg']
  · intro g r' hm
    rcases List.mem_or_eq_of_mem_set hm with hm | he
    · exact h.gens g r' hm
    · cases he

theorem Counted.nextGen (h : Counted m) (hs : m'.shutdown = m.shutdown)
    (hw : m'.workers = m.workers) (hp : m'.parked = m.parked) (ht : m'.threads = m.threads)
    (hg : m'.parkGen = m.parkGen+1) (hz : m'.parkedGen = 0) : Counted m' := by
  have hold : ∀ w ∈ m.threads, ¬ w.isParkedIn (m.parkGen+1) = true := by
    intro w hw hin
    cases w with
    | parked g r =>
      have := h.gens g r hw
      simp only [Worker.isParkedIn,beq_iff_eq] at hin
      omega
    | _ => simp [Worker.isParkedIn] at hin
  refine ⟨hs ▸ h.open_,?_,?_,?_,?_⟩
  · rw [hw,ht,h.workers]
  · rw [hp,ht,h.parked]
  · rw [hz,ht,hg,List.countP_eq_zero.mpr hold]
    rfl
  · intro g r hm
    rw [ht] at hm
    have := h.gens g r hm
    omega

theorem Counted.postRun (h : Counted m) (want : ControlState) :
    Counted (m.postRunLocked opt want) := by
  by_cases hw : want = .running
  · subst hw
    exact ⟨h.open_,h.workers,h.parked,h.parkedGen,h.gens⟩
  · refine h.nextGen rfl rfl rfl rfl ?_ ?_ <;> simp [postRunLocked,setStateLocked,hw]

theorem Counted.same (h : Counted m) (hs : m'.shutdown = m.shutdown)
    (hw : m'.workers = m.workers) (hp : m'.parked = m.parked) (ht : m'.threads = m.threads)
    (hg : m'.parkGen = m.parkGen) (hz : m'.parkedGen = m.parkedGen) : Counted m' :=
  ⟨hs ▸ h.open_,by rw [hw,ht,h.workers],by rw [hp,ht,h.parked],by rw [hz,ht,hg,h.parkedGen],
    by rw [ht,hg]; exact h.gens⟩

theorem Phased.landed (h : Phased m) (hm : m.mutating = false) : m.state ≠ .switching :=
  fun hs => by simp [h.busy.mpr hs] at hm

theorem Phased.mutating (h : Phased m) (hp : m.poolSwitch = true) : m.mutating = true :=
  h.busy.mpr (h.poolBusy hp)

theorem Phased.not_pool (h : Phased m) (hm : m.mutating = false) : m.poolSwitch = false := by
  refine Bool.eq_false_iff.mpr (fun hp => ?_)
  simp [h.mutating hp] at hm

theorem Phased.not_handed (h : Phased m) (hp : m.poolSwitch = false) :
    m.pool.pending = false := by
  refine Bool.eq_false_iff.mpr (fun hq => ?_)
  simp [(h.handed hq).1] at hp

theorem Phased.commit (h : Phased m) (hp : m.poolSwitch = false)
    (hq : m.pool.pending = false) (cause : Option Nat) (answered : Bool) :
    Phased (m.commit cause answered) where
  busy := by simpa [Machine.commit,logEnding,setTerms,setStateLocked] using h.pending
  previous := h.previous
  pending := h.pending
  poolBusy := by simp [Machine.commit,logEnding,setTerms,setStateLocked,hp]
  handed := by simp [Machine.commit,logEnding,setTerms,setStateLocked,hq]
  gathered := by simp [Machine.commit,logEnding,setTerms,setStateLocked,hp]
  held := by simp [Machine.commit,logEnding,setTerms,setStateLocked,hp]
  taken := by simp [Machine.commit,logEnding,setTerms,setStateLocked,hp]

theorem Phased.dropPool_commit (hv : m.previous ≠ .switching) (hn : m.pending ≠ .switching)
    (cause : Option Nat) (answered : Bool) : Phased (m.dropPool.commit cause answered) where
  busy := by simpa [Machine.commit,logEnding,setTerms,setStateLocked,dropPool] using hn
  previous := hv
  pending := hn
  poolBusy := by simp [Machine.commit,logEnding,setTerms,setStateLocked,dropPool]
  handed := by simp [Machine.commit,logEnding,setTerms,setStateLocked,dropPool]
  gathered := by simp [Machine.commit,logEnding,setTerms,setStateLocked,dropPool]
  held := by simp [Machine.commit,logEnding,setTerms,setStateLocked,dropPool]
  taken := by simp [Machine.commit,logEnding,setTerms,setStateLocked,dropPool]

theorem Phased.rollback (h : m.previous ≠ .switching) (cause : Option Nat) (o : Outcome)
    (why : CStr) : Phased (m.rollbackLocked cause o why) where
  busy := by simpa [rollbackLocked,setTerms,setStateLocked,dropPool] using h
  previous := h
  pending := h
  poolBusy := by simp [rollbackLocked,setTerms,setStateLocked,dropPool]
  handed := by simp [rollbackLocked,setTerms,setStateLocked,dropPool]
  gathered := by simp [rollbackLocked,setTerms,setStateLocked,dropPool]
  held := by simp [rollbackLocked,setTerms,setStateLocked,dropPool]
  taken := by simp [rollbackLocked,setTerms,setStateLocked,dropPool]

theorem Phased.postPool (h : Phased m) (hm : m.mutating = false) (url user pass algo : CStr)
    (restore : Bool) {want : Option ControlState} (hw : want ≠ some .switching) :
    Phased (m.postPoolLocked opt url user pass algo restore want) := by
  have hs := h.landed hm
  have hp : want.getD m.state ≠ .switching := by
    cases want with
    | none => exact hs
    | some s => exact fun he => hw (congrArg some he)
  exact ⟨by simp [postPoolLocked,setStateLocked],hs,hp,fun _ => rfl,
    by simp [postPoolLocked],by simp [postPoolLocked],fun _ => rfl,by simp [postPoolLocked]⟩

theorem Phased.postRun (h : Phased m) (hm : m.mutating = false) {want : ControlState}
    (hw : want ≠ .switching) : Phased (m.postRunLocked opt want) := by
  have hs := h.landed hm
  have hp := h.not_pool hm
  have hq : m.pool.pending = false := h.not_handed hp
  refine ⟨?_,hs,hw,?_,?_,?_,?_,?_⟩ <;> simp [postRunLocked,setStateLocked,hp,hq]

theorem Phased.handOver (h : Phased m) (ha : m.asks = true) : Phased m.handOver := by
  simp only [asks,Bool.and_eq_true,decide_eq_true_eq,Bool.not_eq_true'] at ha
  obtain ⟨⟨⟨⟨hs,hp⟩,hq⟩,hn⟩,hk⟩ := ha
  have hd : m.pool.done = false := by
    refine Bool.eq_false_iff.mpr (fun hd => ?_)
    simp [h.taken hp hd] at hn
  exact ⟨h.busy,h.previous,h.pending,h.poolBusy,fun _ => ⟨hp,hn,hd⟩,fun _ _ => hk,h.held,
    h.taken⟩

theorem Phased.takePool (h : Phased m) (hq : m.pool.pending = true) : Phased m.takePool := by
  obtain ⟨hp,-,-⟩ := h.handed hq
  exact ⟨h.busy,h.previous,h.pending,h.poolBusy,by simp [Machine.takePool],
    fun _ _ => h.gathered hp (.inl hq),h.held,fun _ _ => rfl⟩

theorem Phased.answered (h : Phased m) (ha : m.pool.applied = true) (ok : Bool) :
    Phased (m.answerPool ok) := by
  refine ⟨h.busy,h.previous,h.pending,h.poolBusy,?_,h.gathered,h.held,fun _ _ => ha⟩
  intro hq
  simp [(h.handed hq).2.1] at ha

/-- While a change waits for the stratum thread, or for its pool, nobody leaves. -/
theorem Sound.stays (h : Sound m) (hp : m.poolSwitch = true) : m.staysParked m.parkGen = true := by
  simp [staysParked,h.phased.held hp,h.counted.open_]

theorem Sound.enterPark (h : Sound m) {i : Nat} {retains : Bool}
    (hi : m.threads[i]? = some (.leaving retains)) : Sound (m.enterPark i retains) := by
  refine ⟨h.counted.enterPark hi,?_⟩
  obtain ⟨hb,hv,hn,hpb,hh,hg,hk,ht⟩ := h.phased
  refine ⟨hb,hv,hn,hpb,hh,?_,hk,ht⟩
  intro hp hq
  have hin : m.workers ≤ m.parkedGen := by simpa [allParkedLocked] using hg hp hq
  have : m.workers ≤ m.parkedGen+1 := by omega
  simpa [allParkedLocked,Machine.enterPark] using this

theorem Sound.leavePark (h : Sound m) {i gen : Nat} {r : Bool}
    (hi : m.threads[i]? = some (.parked gen r)) (hs : m.staysParked gen = false) :
    Sound (m.leavePark i gen) := by
  refine ⟨h.counted.leavePark hi,?_⟩
  obtain ⟨hb,hv,hn,hpb,hh,hg,hk,ht⟩ := h.phased
  refine ⟨hb,hv,hn,hpb,hh,?_,hk,ht⟩
  intro hp hq
  have hgen : m.parkGen ≠ gen := by
    intro he
    rw [← he,h.stays hp] at hs
    cases hs
  simpa [allParkedLocked,Machine.leavePark,hgen] using hg hp hq

theorem Sound.land (h : Sound m) : Sound m.land := by
  unfold Machine.land
  by_cases hp : m.poolSwitch = true
  · rw [if_pos hp]
    exact ⟨h.counted.same rfl rfl rfl rfl rfl rfl,
      Phased.dropPool_commit h.phased.previous h.phased.pending none m.pool.ok⟩
  · have hp' : m.poolSwitch = false := by simpa using hp
    rw [if_neg hp]
    exact ⟨h.counted.same rfl rfl rfl rfl rfl rfl,
      h.phased.commit hp' (h.phased.not_handed hp') none true⟩

theorem Sound.rollback (h : Sound m) (cause : Option Nat) (o : Outcome) (why : CStr) :
    Sound (m.rollbackLocked cause o why) :=
  ⟨h.counted.same rfl rfl rfl rfl rfl rfl,Phased.rollback h.phased.previous cause o why⟩

theorem Sound.fine (h : Sound m) (hk : Keeps m mv) (hs : fine opt m mv = some m') :
    Sound m' := by
  have hc := h.counted
  have hp := h.phased
  cases mv with
  | tick | notes | explains | records =>
    cases hs
    exact ⟨hc.same rfl rfl rfl rfl rfl rfl,{ hp with }⟩
  | sees i =>
    simp only [Control.fine,Option.ite_none_right_eq_some,Option.some.injEq] at hs
    obtain ⟨⟨hi,-⟩,rfl⟩ := hs
    exact ⟨hc.outside hi rfl rfl,{ hp with }⟩
  | reads i =>
    simp only [Control.fine,Option.ite_none_right_eq_some,Option.some.injEq] at hs
    obtain ⟨hi,rfl⟩ := hs
    exact ⟨hc.outside hi rfl rfl,{ hp with }⟩
  | enters i retains =>
    simp only [Control.fine,Option.ite_none_right_eq_some,Option.some.injEq] at hs
    obtain ⟨⟨hi,-⟩,rfl⟩ := hs
    exact h.enterPark hi
  | leaves i gen =>
    simp only [Control.fine,Option.ite_none_right_eq_some,Option.some.injEq] at hs
    obtain ⟨⟨⟨r,hi⟩,ho⟩,rfl⟩ := hs
    exact h.leavePark hi ho
  | turnsBack i =>
    simp only [Control.fine,Option.ite_none_right_eq_some] at hs
    simp [hc.open_] at hs
  | handsOver =>
    simp only [Control.fine,Option.ite_none_right_eq_some,Option.some.injEq] at hs
    obtain ⟨ha,rfl⟩ := hs
    exact ⟨hc.same rfl rfl rfl rfl rfl rfl,hp.handOver ha⟩
  | lands =>
    simp only [Control.fine,Option.ite_none_right_eq_some,Option.some.injEq] at hs
    obtain ⟨-,rfl⟩ := hs
    exact h.land
  | landsUnanswered cause =>
    simp only [Control.fine,Option.ite_none_right_eq_some,Option.some.injEq] at hs
    obtain ⟨-,rfl⟩ := hs
    exact ⟨hc.same rfl rfl rfl rfl rfl rfl,
      { Phased.dropPool_commit (m := m.answerPool false) hp.previous hp.pending cause false with }⟩
  | expires cause =>
    simp only [Control.fine,Option.ite_none_right_eq_some,Option.some.injEq] at hs
    obtain ⟨-,rfl⟩ := hs
    exact h.rollback cause _ _
  | timesOut want own =>
    simp only [Control.fine,Option.ite_none_right_eq_some,Option.some.injEq] at hs
    obtain ⟨-,rfl⟩ := hs
    exact h.rollback _ _ _
  | postsPool url user pass algo restore want =>
    simp only [Control.fine,Option.ite_none_right_eq_some,Option.some.injEq] at hs
    obtain ⟨hm,rfl⟩ := hs
    exact ⟨hc.nextGen rfl rfl rfl rfl rfl rfl,hp.postPool hm url user pass algo restore hk⟩
  | postsRun want =>
    simp only [Control.fine,Option.ite_none_right_eq_some,Option.some.injEq] at hs
    obtain ⟨⟨hm,-,hw⟩,rfl⟩ := hs
    exact ⟨hc.postRun want,hp.postRun hm hw⟩
  | takes =>
    simp only [Control.fine,Option.ite_none_right_eq_some,Option.some.injEq] at hs
    obtain ⟨⟨-,hq⟩,rfl⟩ := hs
    exact ⟨hc.same rfl rfl rfl rfl rfl rfl,hp.takePool hq⟩
  | refuses why =>
    simp only [Control.fine] at hs
    split at hs
    · simp only [Option.ite_none_left_eq_some,Option.some.injEq] at hs
      obtain ⟨-,rfl⟩ := hs
      exact ⟨hc.same rfl rfl rfl rfl rfl rfl,Phased.rollback (m := m.markRefused) hp.previous _ _ _⟩
    · cases hs
  | moves | writes | returns =>
    simp only [Control.fine] at hs
    split at hs
    · cases hs
      exact ⟨hc.same rfl rfl rfl rfl rfl rfl,{ hp with }⟩
    · cases hs
  | readsHold =>
    simp only [Control.fine] at hs
    split at hs
    · cases hs
      exact ⟨hc.same rfl rfl rfl rfl rfl rfl,{ hp with }⟩
    · cases hs
  | connects =>
    simp only [Control.fine,Option.ite_none_right_eq_some,Option.some.injEq] at hs
    obtain ⟨⟨-,-,ha,-⟩,rfl⟩ := hs
    exact ⟨hc.same rfl rfl rfl rfl rfl rfl,hp.answered ha true⟩
  | releases => exact hk.elim

def Stays (_ : Machine) (e : Event) : Prop := e ≠ .releaseAll

instance (m : Machine) (e : Event) : Decidable (Stays m e) :=
  inferInstanceAs (Decidable (e ≠ .releaseAll))

theorem Within.keeps (hs : e ≠ .releaseAll) {m₁ : Machine} (h : Within opt m e m₁ mv) :
    Keeps m₁ mv := by
  cases mv with
  | releases => exact hs h
  | postsPool _ _ _ _ _ want =>
    rw [Keeps,h.1]
    exact e.names_ne
  | _ => trivial

theorem Sound.step (h : Sound m) (hs : e ≠ .releaseAll) (hstep : step opt m e = some m') :
    Sound m' :=
  (step_moves hstep).invariant h (fun _ _ _ hm hw hf => hm.fine (hw.keeps hs) hf)

theorem sound_start (n : Nat) (p : Profile) (hook : Bool) : Sound (start n p hook) := by
  have hout : ∀ q : Worker → Bool, q .mining = false →
      (List.replicate n Worker.mining).countP q = 0 := by
    intro q hq
    rw [List.countP_replicate]
    simp [hq]
  refine ⟨⟨rfl,by simp [start],?_,?_,?_⟩,by constructor <;> simp [start]⟩
  · simp only [start,hout Worker.isParked rfl,Int.ofNat_zero]
  · simp only [start,hout (Worker.isParkedIn 0) rfl,Int.ofNat_zero]
  · intro g r hm
    simp only [start] at hm
    cases List.eq_of_mem_replicate hm

theorem sound_reach {n : Nat} {p : Profile} {hook : Bool}
    (h : Reach (Control.step opt) Stays (start n p hook) m) : Sound m :=
  h.invariant (sound_start n p hook) (fun _ _ _ hm he hs => hm.step he hs)

end VkMiner.Control
