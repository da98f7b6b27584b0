import VkMiner.Control.Sound
set_option autoImplicit false

/-! What the stratum thread can count on between two of its own steps: the connection
is held while the miner is stopped, and a change that waits for its pool is the one
that is in force. -/

namespace VkMiner.Control
open Machine Runs

def outside : Event → Bool
  | .takes | .refuses _ | .moves | .writes | .readsHold | .acks | .connected => false
  | _ => true

def Move.ofThread : Move → Bool
  | .takes | .refuses _ | .moves | .writes | .readsHold | .returns | .connects => true
  | _ => false

def Machine.waits (m : Machine) : Bool := m.poolSwitch && m.pool.applied && !m.pool.done

def Targets (m : Machine) : Prop :=
  match m.apply with
  | .taken p _ _ | .moved p _ => p.url = m.pool.url
  | .acking _ => m.profile.url = m.pool.url ∧ m.pending = .stopped
  | .idle | .written _ => m.profile.url = m.pool.url

/-- The change in flight was posted last, and is of the kind that the flags say. -/
def Newest (m : Machine) (P : Mutation) : Prop :=
  m.posted.getLast? = some P ∧
    (m.poolSwitch = true → P.kind = .pool ∧ P.target.profile.url = m.pool.url) ∧
    (m.poolSwitch = false → P.kind ≠ .pool)

structure Steady (m : Machine) : Prop where
  unanswered : m.poolSwitch = true → m.pool.done = false
  stopped : m.state = .stopped → m.holdConnection = true
  hold : m.poolSwitch = true → m.holdConnection = decide (m.pending = .stopped)
  newest : m.mutating = true → ∃ P, Newest m P
  targets : m.poolSwitch = true → m.pool.applied = true → Targets m

/-- Every pool change that was answered, and left the miner other than stopped, was
answered as `ok` says. -/
def Vouched (ok : Nat → Mutation → Prop) (m : Machine) : Prop :=
  ∀ x ∈ m.endings, ∃ P, m.posted[x.mutation]? = some P ∧
    (x.outcome = .landed true → P.kind = .pool → x.triple.run ≠ .stopped → ok x.mutation P)

variable {opt : Options} {m m' : Machine} {e : Event} {mv : Move} {P : Mutation}
  {ok ok' : Nat → Mutation → Prop}

theorem Acts.aside (h : Acts e mv) (ho : outside e = true) : mv.ofThread = false := by
  cases mv with
  | takes | refuses | moves | writes | readsHold | returns =>
    cases h
    cases ho
  | connects =>
    rcases h with rfl | rfl <;> cases ho
  | _ => rfl

theorem Newest.current (h : Newest m P) : m.posted[m.current]? = some P := by
  rw [Machine.current,← List.getLast?_eq_getElem?,h.1]

theorem Steady.ended (hp : m.poolSwitch = false) (hm : m.mutating = false)
    (hh : m.holdConnection = decide (m.state = .stopped)) : Steady m := by
  refine ⟨?_,fun hs => by simp [hh,hs],?_,?_,?_⟩
  · simp [hp]
  · simp [hp]
  · simp [hm]
  · simp [hp]

theorem Steady.commit (hp : m.poolSwitch = false) (cause : Option Nat) (answered : Bool) :
    Steady (m.commit cause answered) :=
  .ended hp rfl rfl

theorem Steady.rollback (cause : Option Nat) (o : Outcome) (why : CStr) :
    Steady (m.rollbackLocked cause o why) :=
  .ended rfl rfl rfl

theorem Steady.lands_run (h : Steady m) (hs : m.settles = true) : m.poolSwitch = false := by
  refine Bool.eq_false_iff.mpr (fun hp => ?_)
  simp [Machine.settles,hp,h.unanswered hp] at hs

theorem Steady.postPool (url user pass algo : CStr) (restore : Bool)
    (want : Option ControlState) :
    Steady (m.postPoolLocked opt url user pass algo restore want) := by
  refine ⟨fun _ => rfl,?_,fun _ => rfl,fun _ => ⟨_,List.getLast?_concat,?_,?_⟩,?_⟩
  · simp [postPoolLocked,setStateLocked]
  · exact fun _ => ⟨rfl,rfl⟩
  · simp [postPoolLocked]
  · simp [postPoolLocked]

theorem Steady.postRun (h : Steady m) (hp : m.poolSwitch = false) (want : ControlState) :
    Steady (m.postRunLocked opt want) := by
  refine ⟨?_,?_,?_,fun _ => ⟨_,List.getLast?_concat,?_,?_⟩,?_⟩
  · exact fun hq => h.unanswered hq
  · simp [postRunLocked,setStateLocked]
  · simp [postRunLocked,setStateLocked,hp]
  · simp [postRunLocked,setStateLocked,hp]
  · simp
  · simp [postRunLocked,setStateLocked,hp]

theorem Steady.advance (h : Steady m) {profile : Profile} {a : Apply}
    (ht : m.poolSwitch = true → Targets m → Targets { m with profile := profile, apply := a }) :
    Steady { m with profile := profile, apply := a } :=
  ⟨h.unanswered,h.stopped,h.hold,h.newest,fun hp hq => ht hp (h.targets hp hq)⟩

theorem Steady.fine (h : Steady m) (hs : Sound m) (hk : Keeps m mv) (hc : mv ≠ .connects)
    (hf : fine opt m mv = some m') : Steady m' := by
  cases mv with
  | tick | notes | explains | records =>
    cases hf
    exact { h with }
  | sees | reads | enters | leaves | turnsBack | handsOver =>
    simp only [Control.fine,Option.ite_none_right_eq_some,Option.some.injEq] at hf
    obtain ⟨-,rfl⟩ := hf
    exact { h with }
  | lands =>
    simp only [Control.fine,Option.ite_none_right_eq_some,Option.some.injEq] at hf
    obtain ⟨hset,rfl⟩ := hf
    have hp := h.lands_run hset
    simp only [Machine.land,hp,Bool.false_eq_true,if_false]
    exact .commit hp none true
  | landsUnanswered cause =>
    simp only [Control.fine,Option.ite_none_right_eq_some,Option.some.injEq] at hf
    obtain ⟨-,rfl⟩ := hf
    exact .ended rfl rfl rfl
  | expires cause | timesOut want own =>
    simp only [Control.fine,Option.ite_none_right_eq_some,Option.some.injEq] at hf
    obtain ⟨-,rfl⟩ := hf
    exact .rollback _ _ _
  | postsPool url user pass algo restore want =>
    simp only [Control.fine,Option.ite_none_right_eq_some,Option.some.injEq] at hf
    obtain ⟨-,rfl⟩ := hf
    exact .postPool url user pass algo restore want
  | postsRun want =>
    simp only [Control.fine,Option.ite_none_right_eq_some,Option.some.injEq] at hf
    obtain ⟨⟨hm,-⟩,rfl⟩ := hf
    exact h.postRun (hs.phased.not_pool hm) want
  | takes =>
    simp only [Control.fine,Option.ite_none_right_eq_some,Option.some.injEq] at hf
    obtain ⟨⟨-,hq⟩,rfl⟩ := hf
    exact ⟨h.unanswered,h.stopped,h.hold,h.newest,fun _ _ => rfl⟩
  | refuses why =>
    simp only [Control.fine] at hf
    split at hf
    · simp only [Option.ite_none_left_eq_some,Option.some.injEq] at hf
      obtain ⟨-,rfl⟩ := hf
      exact .rollback _ _ _
    · cases hf
  | moves =>
    simp only [Control.fine] at hf
    split at hf
    · next p hook k ha =>
      cases hf
      exact h.advance (fun _ ht => by simpa only [Targets,ha] using ht)
    · cases hf
  | writes =>
    simp only [Control.fine] at hf
    split at hf
    · next p k ha =>
      cases hf
      refine h.advance (fun _ ht => ?_)
      simp only [Targets,ha] at ht
      exact ht
    · cases hf
  | readsHold =>
    simp only [Control.fine] at hf
    split at hf
    · next k ha =>
      cases hf
      refine h.advance (fun hp ht => ?_)
      have hh := h.hold hp
      simp only [Targets,ha] at ht
      by_cases hc : m.holdConnection = true
      · simp only [Targets,hc,if_true]
        exact ⟨ht,by simpa [hc] using hh⟩
      · simp only [Targets,hc,if_false,Bool.false_eq_true]
        exact ht
    · cases hf
  | returns =>
    simp only [Control.fine] at hf
    split at hf
    · next k ha =>
      cases hf
      refine h.advance (fun _ ht => ?_)
      simp only [Targets,ha] at ht
      exact ht.1
    · cases hf
  | connects => exact absurd rfl hc
  | releases => exact hk.elim

theorem Vouched.mono (h : Vouched ok m) (hk : ∀ k P, ok k P → ok' k P) : Vouched ok' m := by
  intro x hx
  obtain ⟨P,hP,hv⟩ := h x hx
  exact ⟨P,hP,fun ho hp hr => hk _ _ (hv ho hp hr)⟩

theorem Vouched.posted (h : Vouched ok m) (he : m'.endings = m.endings)
    (hp : m'.posted = m.posted ++ [P]) : Vouched ok m' := by
  intro x hx
  obtain ⟨Q,hQ,hv⟩ := h x (he ▸ hx)
  obtain ⟨hlt,-⟩ := List.getElem?_eq_some_iff.mp hQ
  exact ⟨Q,by rw [hp,List.getElem?_append_left hlt,hQ],hv⟩

theorem Vouched.log (h : Vouched ok m) (hn : Newest m P) {x : Ending}
    (he : m'.endings = m.endings ++ [x]) (hp : m'.posted = m.posted) (hx : x.mutation = m.current)
    (hv : x.outcome = .landed true → P.kind = .pool → x.triple.run ≠ .stopped →
      ok m.current P) : Vouched ok m' := by
  intro y hy
  rw [he] at hy
  rcases List.mem_append.mp hy with hy | hy
  · rw [hp]
    exact h y hy
  · cases List.mem_singleton.mp hy
    rw [hp,hx]
    exact ⟨P,hn.current,hv⟩

theorem Vouched.rollback (h : Vouched ok m) (hst : Steady m) (m₁ : Machine)
    (hm : m₁.mutating = m.mutating) (he : m₁.endings = m.endings) (hp : m₁.posted = m.posted)
    (cause : Option Nat) {o : Outcome} (ho : o ≠ .landed true) (why : CStr) :
    Vouched ok (m₁.rollbackLocked cause o why) := by
  have hcur : m₁.current = m.current := by simp only [Machine.current,hp]
  by_cases hmut : m.mutating = true
  · obtain ⟨P,hn⟩ := hst.newest hmut
    have hend : (m₁.rollbackLocked cause o why).endings = m.endings ++ [⟨m₁.current,cause,o,why,
        ⟨m₁.profile,m₁.previous⟩,m₁.epoch,m₁.switches,m₁.threads,m₁.parkGen⟩] := by
      simp only [rollbackLocked,hm,hmut,if_true]
      rw [← he]
      rfl
    exact h.log hn hend hp hcur (fun hl => absurd hl ho)
  · have hend : (m₁.rollbackLocked cause o why).endings = m.endings := by
      simp only [rollbackLocked,hm,hmut,if_false,Bool.false_eq_true]
      exact he
    intro x hx
    have hpost : (m₁.rollbackLocked cause o why).posted = m.posted := hp
    rw [hpost]
    exact h x (hend ▸ hx)

theorem Vouched.fine (h : Vouched ok m) (hst : Steady m) (hs : Sound m) (hk : Keeps m mv)
    (hc : mv ≠ .connects) (hf : fine opt m mv = some m') : Vouched ok m' := by
  cases mv with
  | tick | notes | explains | records =>
    cases hf
    exact h
  | sees | reads | enters | leaves | turnsBack | handsOver | takes =>
    simp only [Control.fine,Option.ite_none_right_eq_some,Option.some.injEq] at hf
    obtain ⟨-,rfl⟩ := hf
    exact h
  | lands =>
    simp only [Control.fine,Option.ite_none_right_eq_some,Option.some.injEq] at hf
    obtain ⟨hset,rfl⟩ := hf
    have hp := hst.lands_run hset
    have hsw : m.state = .switching := by
      simp only [settles,Bool.and_eq_true,decide_eq_true_eq] at hset
      exact hset.1
    obtain ⟨P,hn⟩ := hst.newest (hs.phased.busy.mpr hsw)
    simp only [Machine.land,hp,Bool.false_eq_true,if_false]
    exact h.log hn rfl rfl rfl (fun _ hpool => absurd hpool (hn.2.2 hp))
  | landsUnanswered cause =>
    simp only [Control.fine,Option.ite_none_right_eq_some,Option.some.injEq] at hf
    obtain ⟨⟨hsw,-⟩,rfl⟩ := hf
    obtain ⟨P,hn⟩ := hst.newest (hs.phased.busy.mpr hsw)
    exact h.log hn rfl rfl rfl (fun hl => by cases hl)
  | expires cause | timesOut want own =>
    simp only [Control.fine,Option.ite_none_right_eq_some,Option.some.injEq] at hf
    obtain ⟨-,rfl⟩ := hf
    exact h.rollback hst m rfl rfl rfl _ (by decide) _
  | postsPool url user pass algo restore want =>
    simp only [Control.fine,Option.ite_none_right_eq_some,Option.some.injEq] at hf
    obtain ⟨-,rfl⟩ := hf
    exact h.posted rfl rfl
  | postsRun want =>
    simp only [Control.fine,Option.ite_none_right_eq_some,Option.some.injEq] at hf
    obtain ⟨-,rfl⟩ := hf
    exact h.posted rfl rfl
  | refuses why =>
    simp only [Control.fine] at hf
    split at hf
    · simp only [Option.ite_none_left_eq_some,Option.some.injEq] at hf
      obtain ⟨-,rfl⟩ := hf
      exact h.rollback hst m.markRefused rfl rfl rfl _ (by decide) _
    · cases hf
  | moves | writes | readsHold | returns =>
    simp only [Control.fine] at hf
    split at hf
    · cases hf
      exact h
    · cases hf
  | connects => exact absurd rfl hc
  | releases => exact hk.elim

/-- The three of them together, which no step but an acknowledgement can upset. -/
structure Ready (ok : Nat → Mutation → Prop) (m : Machine) : Prop where
  sound : Sound m
  steady : Steady m
  vouched : Vouched ok m

theorem Ready.fine (h : Ready ok m) (hk : Keeps m mv) (hc : mv ≠ .connects)
    (hf : Control.fine opt m mv = some m') : Ready ok m' :=
  ⟨h.sound.fine hk hf,h.steady.fine h.sound hk hc hf,h.vouched.fine h.steady h.sound hk hc hf⟩

theorem fine_aside (ho : mv.ofThread = false) (hf : fine opt m mv = some m') :
    m'.apply = m.apply ∧ m'.profile = m.profile := by
  cases mv with
  | tick | notes | explains | records | releases =>
    cases hf
    exact ⟨rfl,rfl⟩
  | takes | refuses | moves | writes | readsHold | returns | connects => cases ho
  | lands =>
    simp only [Control.fine,Option.ite_none_right_eq_some,Option.some.injEq] at hf
    obtain ⟨-,rfl⟩ := hf
    unfold Machine.land
    split <;> exact ⟨rfl,rfl⟩
  | _ =>
    simp only [Control.fine,Option.ite_none_right_eq_some,Option.some.injEq] at hf
    obtain ⟨-,rfl⟩ := hf
    exact ⟨rfl,rfl⟩

theorem Ready.step (h : Ready ok m) (hr : e ≠ .releaseAll) (ha : e ≠ .acks)
    (hc : e ≠ .connected) (hs : Control.step opt m e = some m') : Ready ok m' := by
  refine (step_does hs).invariant h ?_
  intro m₁ mv m₂ h₁ hd hf
  refine h₁.fine (hd.1.keeps hr) ?_ hf
  rintro rfl
  exact hd.2.elim ha hc

theorem outside_same (ho : outside e = true) (hs : step opt m e = some m') :
    m'.apply = m.apply ∧ m'.profile = m.profile := by
  refine (step_does hs).invariant (I := fun m₁ => m₁.apply = m.apply ∧ m₁.profile = m.profile)
    ⟨rfl,rfl⟩ ?_
  intro m₁ mv m₂ ⟨ha,hp⟩ hd hf
  have hsame := fine_aside (hd.2.aside ho) hf
  exact ⟨hsame.1.trans ha,hsame.2.trans hp⟩

theorem Sound.connected (h : Sound m) :
    m.controlPoolConnected =
      if m.waits then (m.answerPool true).dropPool.commit none true else m := by
  unfold controlPoolConnected waits
  by_cases hp : m.poolSwitch = true
  · by_cases ha : m.pool.applied = true
    · cases hd : m.pool.done with
      | true => simp [hp,ha]
      | false =>
        simp [hp,ha,settle_answered m true none (h.phased.poolBusy hp) hp ha]
    · simp [hp,ha]
  · simp [hp]

theorem connected_same (m : Machine) :
    m.controlPoolConnected.apply = m.apply ∧ m.controlPoolConnected.profile = m.profile := by
  unfold controlPoolConnected
  split
  · exact ⟨rfl,rfl⟩
  · refine ⟨settle_apply _ none,?_⟩
    exact settle_frame (·.profile) (fun _ => rfl) (fun _ => rfl) (fun _ _ _ => rfl) _ none

theorem waits_iff : m.waits = true ↔
    m.poolSwitch = true ∧ m.pool.applied = true ∧ m.pool.done = false := by
  simp [waits,and_assoc]

theorem Ready.connected (h : Ready ok m)
    (hok : m.waits = true → m.pending ≠ .stopped → ∀ P, Newest m P → ok m.current P) :
    Ready ok m.controlPoolConnected := by
  rw [h.sound.connected]
  split
  · next hw =>
    have hp := (waits_iff.mp hw).1
    obtain ⟨P,hn⟩ := h.steady.newest (h.sound.phased.mutating hp)
    refine ⟨⟨h.sound.counted.same rfl rfl rfl rfl rfl rfl,?_⟩,.ended rfl rfl rfl,?_⟩
    · exact Phased.dropPool_commit (m := m.answerPool true) h.sound.phased.previous
        h.sound.phased.pending none true
    · exact h.vouched.log hn rfl rfl rfl (fun _ _ hr => hok hw hr P hn)
  · exact h

theorem ready_start (n : Nat) (p : Profile) (hook : Bool) : Ready ok (start n p hook) :=
  ⟨sound_start n p hook,.ended rfl rfl rfl,fun _ hx => by cases hx⟩

end VkMiner.Control
