import VkMiner.Control.Moves
set_option autoImplicit false

namespace VkMiner.Control
open Machine Runs

def judges (opt : Options) : Event → Bool
  | .request want _ => opt.apiControl && want ≠ .switching
  | .poolRequest url _ _ _ _ => opt.apiControl && (poolUrlUsable opt url).isOk
  | .algoRequest algo url _ _ _ _ =>
    opt.apiControl && !algo.isEmpty && (poolUrlUsable opt url).isOk
  | .callerWakes _ | .status | .switchFailed _ => true
  | _ => false

def Event.names : Event → Option ControlState
  | .poolRequest _ _ _ _ want => want.map Subtype.val
  | .algoRequest _ _ _ _ _ want => want.map Subtype.val
  | _ => none

theorem Event.names_ne (e : Event) : e.names ≠ some .switching := by
  cases e with
  | poolRequest _ _ _ _ want =>
    intro h
    obtain ⟨s,-,hs⟩ := Option.map_eq_some_iff.mp h
    exact s.2 hs
  | algoRequest _ _ _ _ _ want =>
    intro h
    obtain ⟨s,-,hs⟩ := Option.map_eq_some_iff.mp h
    exact s.2 hs
  | _ => simp [names]

def Owner (m : Machine) (e : Event) (kind : Kind) (k : Nat) : Prop :=
  ∃ c answerBy b, e = .callerWakes c ∧ m.callers[c]? = some ⟨kind,some k,answerBy,none,b⟩

/-- A deadline that is judged inside `e` is judged against the clock, the
deadline and the stratum thread as `e` found them. -/
structure JudgedAt (opt : Options) (m : Machine) (e : Event) (m₁ : Machine) : Prop where
  judges : judges opt e = true
  apply : m₁.apply = m.apply
  posted : m₁.posted = m.posted
  late : m.deadline ≤ m.now

/-- The request `e` gets as far as posting a change. -/
def posts (opt : Options) (m : Machine) (e : Event) : Bool :=
  judges opt e && !(m.catchUp opt).mutating &&
    (e.names == none || (m.catchUp opt).retryAfterSLocked opt == 0)

/-- Which moves the event `e`, taken in `m`, can consist of, up to the record of
its answer. -/
def Inside (opt : Options) (m : Machine) (e : Event) (m₁ : Machine) : Move → Prop
  | .landsUnanswered cause | .expires cause =>
    JudgedAt opt m e m₁ ∧ ∀ k, cause = some k → ∃ kind, Owner m e kind k
  | .timesOut want k =>
    JudgedAt opt m e m₁ ∧ Owner m e (.run want) k ∧ m₁ = (m.settleLocked none).2
  | .enters i _ => e = .parks i ∧ m₁ = m
  | .postsPool _ _ _ _ _ want => want = e.names ∧ m₁ = m.catchUp opt ∧ posts opt m e = true
  | .explains _ => m₁.mutating = true
  | .releases => e = .releaseAll
  | .records _ => False
  | _ => True

/-- A record that `e` has just written: the pass it made was over the change it
had slept on, or over the one it had just posted. -/
def Recorded (opt : Options) (m : Machine) (e : Event) (m₁ : Machine) (c : Caller) : Prop :=
  ∃ m₀ own, Reach (fine opt) (Inside opt m e) m m₀ ∧ c.mutation = some own ∧
    m₀.waitPass opt c.kind own c.answerBy = (m₁,c.answer) ∧
    c.inFlightThen = (m₁.mutating && m₁.current == own) ∧
    (m₀ = m ∧ Owner m e c.kind own ∨
      m₀.state = .switching ∧ own = m₀.current ∧
        m₀.posted.getLast?.map Mutation.kind = some c.kind)

def Within (opt : Options) (m : Machine) (e : Event) (m₁ : Machine) : Move → Prop
  | .records cs => ∀ c ∈ cs, c ∈ m₁.callers ∨ c.mutation = none ∨ Recorded opt m e m₁ c
  | mv => Inside opt m e m₁ mv

/-- The stratum thread's moves are made in events of its own. -/
def Acts (e : Event) : Move → Prop
  | .takes => e = .takes
  | .refuses why => e = .refuses why
  | .moves => e = .moves
  | .writes => e = .writes
  | .readsHold => e = .readsHold
  | .returns => e = .acks
  | .connects => e = .acks ∨ e = .connected
  | _ => True

def Does (opt : Options) (m : Machine) (e : Event) (m₁ : Machine) (mv : Move) : Prop :=
  Within opt m e m₁ mv ∧ Acts e mv

def Doing (opt : Options) (m : Machine) (e : Event) (m₁ : Machine) (mv : Move) : Prop :=
  Inside opt m e m₁ mv ∧ Acts e mv

variable {opt : Options} {m m' m₁ : Machine} {e : Event} {okf : Machine → Move → Prop}

theorem settle_cases (m : Machine) (cause : Option Nat) :
    m.settleLocked cause = (false,m) ∨
    (m.asks = true ∧ m.settleLocked cause = (false,m.handOver)) ∨
    (m.settles = true ∧ m.settleLocked cause =
      (true,if m.poolSwitch then m.dropPool.commit cause m.pool.ok
        else m.commit cause true)) := by
  unfold settleLocked asks settles
  by_cases hs : m.state = .switching
  · by_cases hp : m.poolSwitch = true
    · cases hq : m.pool.pending <;> cases ha : m.pool.applied <;>
        cases hk : m.allParkedLocked <;> cases hd : m.pool.done <;>
        simp_all [handOver,dropPool]
    · cases hl : m.landedLocked <;> simp_all
  · simp [hs]

theorem settle_none (m : Machine) :
    m.settleLocked none = (false,m) ∨
    (m.asks = true ∧ m.settleLocked none = (false,m.handOver)) ∨
    (m.settles = true ∧ m.settleLocked none = (true,m.land)) := by
  simpa only [land,apply_ite] using settle_cases m none

theorem settle_frame {α : Type} (f : Machine → α) (ho : ∀ m : Machine, f m.handOver = f m)
    (hd : ∀ m : Machine, f m.dropPool = f m)
    (hc : ∀ (m : Machine) (c : Option Nat) (a : Bool), f (m.commit c a) = f m)
    (m : Machine) (cause : Option Nat) : f (m.settleLocked cause).2 = f m := by
  rcases settle_cases m cause with h | ⟨_,h⟩ | ⟨_,h⟩
  · rw [h]
  · rw [h]
    exact ho m
  · rw [h]
    simp only
    split
    · rw [hc,hd]
    · rw [hc]

@[simp] theorem settle_now (m : Machine) (c : Option Nat) : (m.settleLocked c).2.now = m.now :=
  settle_frame (·.now) (fun _ => rfl) (fun _ => rfl) (fun _ _ _ => rfl) m c

@[simp] theorem settle_deadline (m : Machine) (c : Option Nat) :
    (m.settleLocked c).2.deadline = m.deadline :=
  settle_frame (·.deadline) (fun _ => rfl) (fun _ => rfl) (fun _ _ _ => rfl) m c

@[simp] theorem settle_apply (m : Machine) (c : Option Nat) :
    (m.settleLocked c).2.apply = m.apply :=
  settle_frame (·.apply) (fun _ => rfl) (fun _ => rfl) (fun _ _ _ => rfl) m c

@[simp] theorem settle_posted (m : Machine) (c : Option Nat) :
    (m.settleLocked c).2.posted = m.posted :=
  settle_frame (·.posted) (fun _ => rfl) (fun _ => rfl) (fun _ _ _ => rfl) m c

theorem settle_quiet {cause : Option Nat} (h : m.state ≠ .switching) :
    m.settleLocked cause = (false,m) := by
  simp [settleLocked,h]

theorem settle_answered (m : Machine) (ok : Bool) (cause : Option Nat)
    (hs : m.state = .switching) (hp : m.poolSwitch = true) (ha : m.pool.applied = true) :
    (m.answerPool ok).settleLocked cause =
      (true,(m.answerPool ok).dropPool.commit cause ok) := by
  simp [settleLocked,answerPool,hs,hp,ha]

theorem expire_cases (opt : Options) (m : Machine) (cause : Option Nat) :
    m.expireLocked opt cause = m ∨
    ((m.state = .switching ∧ m.deadline ≤ m.now ∧ m.poolSwitch = true ∧
        m.pool.applied = true) ∧
      m.expireLocked opt cause = m.landUnanswered opt cause) ∨
    ((m.state = .switching ∧ m.deadline ≤ m.now ∧
        (m.poolSwitch && m.pool.applied) = false) ∧
      m.expireLocked opt cause = m.rollbackLocked cause .rolledBack (m.expireText opt)) := by
  unfold expireLocked
  by_cases hs : m.state = .switching
  · by_cases hd : m.now < m.deadline
    · simp [hs,hd]
    · have hd' : m.deadline ≤ m.now := by omega
      by_cases hp : (m.poolSwitch && m.pool.applied) = true
      · simp only [Bool.and_eq_true] at hp
        right; left
        simp [hs,hd,hd',hp.1,hp.2,settle_answered m false cause hs hp.1 hp.2,landUnanswered]
      · right; right
        simp only [Bool.not_eq_true] at hp
        simp [hs,hd,hd',hp,expireText]
  · simp [hs]

theorem settle_moves (hh : okf m .handsOver) (hl : okf m .lands) :
    Reach (fine opt) okf m (m.settleLocked none).2 := by
  rcases settle_none m with h | ⟨ha,h⟩ | ⟨hs,h⟩
  · rw [h]
    exact .start
  · rw [h]
    exact .single hh (by simp [fine,ha])
  · rw [h]
    exact .single hl (by simp [fine,hs])

theorem expire_moves {cause : Option Nat}
    (h : m.deadline ≤ m.now → okf m (.landsUnanswered cause) ∧ okf m (.expires cause)) :
    Reach (fine opt) okf m (m.expireLocked opt cause) := by
  rcases expire_cases opt m cause with he | ⟨hc,he⟩ | ⟨hc,he⟩
  · rw [he]
    exact .start
  · rw [he]
    exact .single (h hc.2.1).1 (by simp only [fine,hc,and_self,if_true])
  · rw [he]
    exact .single (h hc.2.1).2 (by simp only [fine,hc,and_self,if_true])

theorem catchUp_moves (hh : okf m .handsOver) (hl : okf m .lands)
    (hj : ∀ m₁ : Machine, m₁.apply = m.apply → m₁.posted = m.posted → m.deadline ≤ m.now →
      okf m₁ (.landsUnanswered none) ∧ okf m₁ (.expires none)) :
    Reach (fine opt) okf m (m.catchUp opt) := by
  refine (settle_moves hh hl).trans (expire_moves ?_)
  intro hd
  exact hj _ (settle_apply m none) (settle_posted m none) (by simpa using hd)

def MayJudge (okf : Machine → Move → Prop) (m : Machine) (kind : Kind) (own : Nat)
    (m₁ : Machine) : Prop :=
  m₁.apply = m.apply → m₁.posted = m.posted → m.deadline ≤ m.now →
    okf m₁ (.landsUnanswered (some own)) ∧ okf m₁ (.expires (some own)) ∧
    ∀ want, kind = .run want → m₁ = (m.settleLocked none).2 → okf m₁ (.timesOut want own)

theorem judge_moves {kind : Kind} {own : Nat} (he : m₁ = (m.settleLocked none).2)
    (hj : MayJudge okf m kind own m₁) :
    Reach (fine opt) okf m₁ (m₁.judge opt kind own).1 := by
  have ha : m₁.apply = m.apply := by rw [he,settle_apply]
  have hp : m₁.posted = m.posted := by rw [he,settle_posted]
  have hn : m₁.now = m.now := by rw [he,settle_now]
  have hd : m₁.deadline = m.deadline := by rw [he,settle_deadline]
  cases kind with
  | run want =>
    simp only [judge,judgeRun]
    split
    · exact .start
    · rename_i hne
      split
      · rename_i hl
        have h := hj ha hp (by omega)
        exact .single (h.2.2 want rfl he) (by simp [fine,hl,hne])
      · exact .start
  | pool =>
    simp only [judge,judgePool]
    split
    · split <;> exact .start
    · split
      · rename_i hl
        have h := hj ha hp (by omega)
        exact expire_moves (fun _ => ⟨h.1,h.2.1⟩)
      · exact .start

theorem waitPass_moves {kind : Kind} {own answerBy : Nat}
    (hh : okf m .handsOver) (hl : okf m .lands)
    (hj : ∀ m₁, MayJudge okf m kind own m₁) :
    Reach (fine opt) okf m (m.waitPass opt kind own answerBy).1 := by
  unfold waitPass
  split
  · rename_i hs
    exact judge_moves (by rw [settle_quiet hs]) (hj m)
  · simp only
    split
    · exact settle_moves hh hl
    · exact (settle_moves hh hl).trans (judge_moves rfl (hj _))

theorem Inside.within {mv : Move} (h : Inside opt m e m₁ mv) : Within opt m e m₁ mv := by
  cases mv with
  | records cs => exact h.elim
  | _ => exact h

theorem doing_does (h : Reach (fine opt) (Doing opt m e) m m') :
    Reach (fine opt) (Does opt m e) m m' :=
  h.mono (fun _ _ hi => ⟨hi.1.within,hi.2⟩)

theorem awaitOwn_moves {m₀ : Machine} {kind : Kind} {waitMs : Nat}
    (h : Reach (fine opt) (Doing opt m e) m m₀) (hs : m₀.state = .switching)
    (hk : m₀.posted.getLast?.map Mutation.kind = some kind) (hd : m₀.now < m₀.deadline) :
    Reach (fine opt) (Does opt m e) m (m₀.awaitOwn opt kind waitMs) := by
  have hw : Reach (fine opt) (Doing opt m e) m₀
      (m₀.waitPass opt kind m₀.current (m₀.answerBy waitMs)).1 :=
    waitPass_moves ⟨trivial,trivial⟩ ⟨trivial,trivial⟩ (fun m₁ _ _ hlate => by omega)
  refine (doing_does (h.trans hw)).next (e := .records _) ⟨?_,trivial⟩ rfl
  intro c hc
  rcases List.mem_append.mp hc with hc | hc
  · exact .inl hc
  · cases List.mem_singleton.mp hc
    exact .inr (.inr ⟨m₀,_,h.mono (fun _ _ hi => hi.1),rfl,rfl,rfl,.inr ⟨hs,rfl,hk⟩⟩)

theorem turnAway_moves {m₀ : Machine} {kind : Kind} {r : ControlResult} {why : CStr}
    (h : Reach (fine opt) (Doing opt m e) m m₀) :
    Reach (fine opt) (Does opt m e) m (m₀.turnAway kind r why) := by
  refine (doing_does h).next (e := .records _) ⟨?_,trivial⟩ rfl
  intro c hc
  rcases List.mem_append.mp hc with hc | hc
  · exact .inl hc
  · cases List.mem_singleton.mp hc
    exact .inr (.inl rfl)

theorem doing_catchUp (h : judges opt e = true) :
    Reach (fine opt) (Doing opt m e) m (m.catchUp opt) := by
  refine catchUp_moves ⟨trivial,trivial⟩ ⟨trivial,trivial⟩ ?_
  intro m₁ ha hp hd
  refine ⟨⟨⟨⟨h,ha,hp,hd⟩,?_⟩,trivial⟩,⟨⟨h,ha,hp,hd⟩,?_⟩,trivial⟩ <;> intro k hk <;> cases hk

theorem deadline_later (opt : Options) (n : Nat) :
    n < n+milliseconds (parkTimeoutMs opt) := by
  have h := parkTimeoutMs_pos opt
  unfold milliseconds
  omega

theorem postRun_kind (m : Machine) (want : ControlState) :
    (m.postRunLocked opt want).posted.getLast?.map Mutation.kind = some (.run want) := by
  simp [postRunLocked]

theorem postPool_kind (m : Machine) (url user pass algo : CStr) (restore : Bool)
    (want : Option ControlState) :
    (m.postPoolLocked opt url user pass algo restore want).posted.getLast?.map Mutation.kind =
      some .pool := by
  simp [postPoolLocked]

theorem request_moves (want : ControlState) (waitMs : Nat) :
    Reach (fine opt) (Does opt m (.request want waitMs)) m
      (m.controlRequest opt want waitMs) := by
  unfold controlRequest
  by_cases hc : opt.apiControl = true
  · by_cases hw : want = .switching
    · simp only [hc,hw,Bool.not_true,if_true,if_false,Bool.false_eq_true]
      exact turnAway_moves .start
    · have hj : judges opt (.request want waitMs) = true := by simp [judges,hc,hw]
      simp only [hc,hw,Bool.not_true,if_false,Bool.false_eq_true]
      split
      · exact turnAway_moves (doing_catchUp hj)
      · rename_i hm
        split
        · exact turnAway_moves (doing_catchUp hj)
        · rename_i hs
          have hp : Reach (fine opt) (Doing opt m (.request want waitMs)) m
              ((m.catchUp opt).postRunLocked opt want) :=
            (doing_catchUp hj).next (e := .postsRun want) ⟨trivial,trivial⟩ (by simp [fine,hm,hs,hw])
          exact awaitOwn_moves hp (by simp [postRunLocked,setStateLocked]) (postRun_kind _ want)
            (deadline_later opt _)
  · simp only [hc,Bool.not_false,if_true]
    exact turnAway_moves .start

theorem postOrRefuse_moves {what : String} {url user pass algo : CStr} {waitMs : Nat}
    {want : Option ControlState} (hj : judges opt e = true) (hn : e.names = want) :
    Reach (fine opt) (Does opt m e) m
      (m.postOrRefuse opt what url user pass algo waitMs want) := by
  unfold postOrRefuse
  simp only
  split
  · exact turnAway_moves (doing_catchUp hj)
  · rename_i hm
    split
    · exact turnAway_moves (doing_catchUp hj)
    · rename_i hr
      have hq : posts opt m e = true := by simpa [posts,hj,hm] using .inr (Decidable.not_not.mp hr)
      have hp : Reach (fine opt) (Doing opt m e) m
          ((m.catchUp opt).postPoolLocked opt url user pass algo false want) :=
        (doing_catchUp hj).next (e := .postsPool url user pass algo false want)
          ⟨⟨hn.symm,rfl,hq⟩,trivial⟩ (by simp [fine,hm])
      exact awaitOwn_moves hp (by simp [postPoolLocked,setStateLocked])
        (postPool_kind _ url user pass algo false want) (deadline_later opt _)

theorem poolRequest_moves (url user pass : CStr) (waitMs : Nat) (want : Option NamedRun) :
    Reach (fine opt) (Does opt m (.poolRequest url user pass waitMs want)) m
      (m.controlPoolRequest opt url user pass waitMs (want.map Subtype.val)) := by
  unfold controlPoolRequest
  by_cases hc : opt.apiControl = true
  · simp only [hc,Bool.not_true,if_false,Bool.false_eq_true]
    cases hu : poolUrlUsable opt url with
    | error complaint => exact turnAway_moves .start
    | ok _ => exact postOrRefuse_moves (by simp [judges,hc,hu,Except.isOk,Except.toBool]) rfl
  · simp only [hc,Bool.not_false,if_true]
    exact turnAway_moves .start

theorem algoRequest_moves (algo url user pass : CStr) (waitMs : Nat)
    (want : Option NamedRun) :
    Reach (fine opt) (Does opt m (.algoRequest algo url user pass waitMs want)) m
      (m.controlAlgoRequest opt algo url user pass waitMs (want.map Subtype.val)) := by
  unfold controlAlgoRequest
  by_cases hc : opt.apiControl = true
  · by_cases ha : algo.isEmpty = true
    · simp only [hc,ha,Bool.not_true,if_true,if_false,Bool.false_eq_true]
      exact turnAway_moves .start
    · simp only [hc,ha,Bool.not_true,if_false,Bool.false_eq_true]
      cases hu : poolUrlUsable opt url with
      | error complaint => exact turnAway_moves .start
      | ok _ =>
        exact postOrRefuse_moves (by simp [judges,hc,ha,hu,Except.isOk,Except.toBool]) rfl
  · simp only [hc,Bool.not_false,if_true]
    exact turnAway_moves .start

theorem callerWakes_moves {c : Nat} (h : m.wakeCaller opt c = some m') :
    Reach (fine opt) (Does opt m (.callerWakes c)) m m' := by
  unfold wakeCaller at h
  split at h
  · rename_i kind own answerBy b hc
    simp only [Option.some.injEq] at h
    have ho : Owner m (.callerWakes c) kind own := ⟨c,answerBy,b,rfl,hc⟩
    have hw : Reach (fine opt) (Doing opt m (.callerWakes c)) m
        (m.waitPass opt kind own answerBy).1 := by
      refine waitPass_moves ⟨trivial,trivial⟩ ⟨trivial,trivial⟩ ?_
      intro m₁ ha hp hd
      have hat : JudgedAt opt m (.callerWakes c) m₁ := ⟨rfl,ha,hp,hd⟩
      refine ⟨⟨⟨hat,?_⟩,trivial⟩,⟨⟨hat,?_⟩,trivial⟩,?_⟩
      · intro k hk
        cases hk
        exact ⟨kind,ho⟩
      · intro k hk
        cases hk
        exact ⟨kind,ho⟩
      · intro want hk hm
        exact ⟨⟨hat,hk ▸ ho,hm⟩,trivial⟩
    rw [← h]
    refine (doing_does hw).next (e := .records _) ⟨?_,trivial⟩ rfl
    intro d hd
    rcases List.mem_or_eq_of_mem_set hd with hd | rfl
    · exact .inl hd
    · exact .inr (.inr ⟨m,own,.start,rfl,rfl,rfl,.inl ⟨rfl,ho⟩⟩)
  · cases h

theorem switchFailed_moves (why : CStr) :
    Reach (fine opt) (Doing opt m (.switchFailed why)) m (m.controlSwitchFailed opt why) := by
  have hc : Reach (fine opt) (Doing opt m (.switchFailed why)) m (m.catchUp opt) :=
    doing_catchUp rfl
  unfold controlSwitchFailed
  simp only
  split
  · exact hc.next (e := .notes why) ⟨trivial,trivial⟩ rfl
  · rename_i hm
    simp only [Bool.or_eq_true,not_or,Bool.not_eq_true] at hm
    have hq : posts opt m (.switchFailed why) = true := by
      simp [posts,judges,Event.names,hm.2]
    have hp : Reach (fine opt) (Doing opt m (.switchFailed why)) m
        ((m.catchUp opt).postPoolLocked opt (m.catchUp opt).prev.url (m.catchUp opt).prev.user
          (m.catchUp opt).prev.pass (m.catchUp opt).prev.algo true none) :=
      hc.next (e := .postsPool _ _ _ _ true none) ⟨⟨rfl,rfl,hq⟩,trivial⟩ (if_pos hm.2)
    exact hp.next (e := .explains why) ⟨rfl,trivial⟩ rfl

theorem parkPass_moves {i gen : Nat} (hp : ∃ r, m.threads[i]? = some (.parked gen r))
    (hv : ∀ m₁, okf m₁ (.leaves i gen)) (hh : ∀ m₁, okf m₁ .handsOver)
    (hl : ∀ m₁, okf m₁ .lands) :
    Reach (fine opt) okf m (m.parkPass i gen) := by
  unfold parkPass
  split
  · exact .start
  · rename_i hs
    simp only [Bool.not_eq_true] at hs
    have h : Reach (fine opt) okf m (m.leavePark i gen) :=
      .single (e := .leaves i gen) (hv m) (by simp only [fine,hp,hs,and_self,if_true])
    exact h.trans (settle_moves (hh _) (hl _))

theorem parks_moves {i : Nat} {retains : Bool}
    (hi : m.threads[i]? = some (.leaving retains)) :
    Reach (fine opt) (Doing opt m (.parks i)) m (m.controlPark i retains) := by
  unfold controlPark
  split
  · rename_i hs
    exact .single (e := .turnsBack i) ⟨trivial,trivial⟩ (by simp [fine,hs])
  · rename_i hs
    simp only [Bool.not_eq_true] at hs
    have he : Reach (fine opt) (Doing opt m (.parks i)) m (m.enterPark i retains) :=
      .single (e := .enters i retains) ⟨⟨rfl,rfl⟩,trivial⟩ (by simp [fine,hi,hs])
    have hlt : i < m.threads.length := (List.getElem?_eq_some_iff.mp hi).1
    have ht : ∀ c, ((m.enterPark i retains).settleLocked c).2.threads =
        m.threads.set i (.parked m.parkGen retains) :=
      settle_frame (·.threads) (fun _ => rfl) (fun _ => rfl) (fun _ _ _ => rfl) _
    refine (he.trans (settle_moves ⟨trivial,trivial⟩ ⟨trivial,trivial⟩)).trans (parkPass_moves ?_
      (fun _ => ⟨trivial,trivial⟩) (fun _ => ⟨trivial,trivial⟩) (fun _ => ⟨trivial,trivial⟩))
    exact ⟨retains,by rw [ht,List.getElem?_set_self hlt]⟩

theorem connected_moves (hi : m.apply = .idle)
    (hc : okf m .connects) (hh : ∀ m₁, okf m₁ .handsOver) (hl : ∀ m₁, okf m₁ .lands) :
    Reach (fine opt) okf m m.controlPoolConnected := by
  unfold controlPoolConnected
  split
  · exact .start
  · rename_i h
    simp only [Bool.or_eq_true,Bool.not_eq_true',not_or,Bool.not_eq_true,
      Bool.not_eq_false] at h
    have h₁ : Reach (fine opt) okf m (m.answerPool true) :=
      .single (e := .connects) hc (by simp [fine,hi,h])
    exact h₁.trans (settle_moves (hh _) (hl _))

theorem step_does (h : step opt m e = some m') :
    Reach (fine opt) (Does opt m e) m m' := by
  cases e with
  | tick ns => exact .single (e := .tick ns) ⟨trivial,trivial⟩ h
  | seesPark i =>
    simp only [step] at h
    split at h
    · rename_i hi
      exact .single (e := .sees i) ⟨trivial,trivial⟩ (by simpa [fine,hi] using h)
    · cases h
  | readsTerms i =>
    simp only [step] at h
    split at h
    · rename_i hi
      exact .single (e := .reads i) ⟨trivial,trivial⟩ (by simpa [fine,hi] using h)
    · cases h
  | parks i =>
    simp only [step] at h
    split at h
    · rename_i retains hi
      cases h
      exact doing_does (parks_moves hi)
    · cases h
  | wakes i =>
    simp only [step] at h
    split at h
    · rename_i gen r hi
      cases h
      exact parkPass_moves ⟨r,hi⟩ (fun _ => ⟨trivial,trivial⟩) (fun _ => ⟨trivial,trivial⟩) (fun _ => ⟨trivial,trivial⟩)
    · cases h
  | request want waitMs =>
    cases h
    exact request_moves want waitMs
  | poolRequest url user pass waitMs want =>
    cases h
    exact poolRequest_moves url user pass waitMs want
  | algoRequest algo url user pass waitMs want =>
    cases h
    exact algoRequest_moves algo url user pass waitMs want
  | callerWakes c => exact callerWakes_moves h
  | status =>
    cases h
    exact doing_does (doing_catchUp rfl)
  | switchFailed why =>
    cases h
    exact doing_does (switchFailed_moves why)
  | takes =>
    simp only [step] at h
    split at h
    · rename_i hi
      exact .single (e := .takes) ⟨trivial,rfl⟩ (by simpa [fine,hi] using h)
    · cases h
  | refuses why => exact .single (e := .refuses why) ⟨trivial,rfl⟩ h
  | moves =>
    refine .single (e := .moves) ⟨trivial,rfl⟩ ?_
    simp only [step] at h
    split at h
    · rename_i hi
      split at h
      · simpa only [fine,hi] using h
      · cases h
    · cases h
  | writes => exact .single (e := .writes) ⟨trivial,rfl⟩ h
  | readsHold => exact .single (e := .readsHold) ⟨trivial,rfl⟩ h
  | acks =>
    simp only [step] at h
    split at h
    · rename_i k hi
      cases h
      have hr : Reach (fine opt) (Does opt m .acks) m { m with apply := .idle } :=
        .single (e := .returns) ⟨trivial,rfl⟩ (by simp [fine,hi])
      exact hr.trans (connected_moves rfl ⟨trivial,.inl rfl⟩ (fun _ => ⟨trivial,trivial⟩) (fun _ => ⟨trivial,trivial⟩))
    · cases h
  | connected =>
    simp only [step] at h
    split at h
    · rename_i hi
      cases h
      exact connected_moves hi ⟨trivial,.inr rfl⟩ (fun _ => ⟨trivial,trivial⟩) (fun _ => ⟨trivial,trivial⟩)
    · cases h
  | releaseAll => exact .single (e := .releases) ⟨rfl,trivial⟩ h

theorem step_moves (h : step opt m e = some m') :
    Reach (fine opt) (Within opt m e) m m' :=
  (step_does h).mono (fun _ _ hd => hd.1)

end VkMiner.Control
