import VkMiner.Control.Answers
set_option autoImplicit false

/-! Which request each change was posted for, and what became of the pool change that
the globals still hold. -/

namespace VkMiner.Control
open Machine Runs

inductive Ask where
  | run | retarget | switch | restore
  deriving DecidableEq, Repr

def Event.ask : Event → Ask
  | .poolRequest _ _ _ _ _ => .retarget
  | .algoRequest _ _ _ _ _ _ => .switch
  | .switchFailed _ => .restore
  | _ => .run

/-- The event `e`, taken in `m`, posts a change, and leaves `m₁` when it has. -/
inductive Posts (opt : Options) (m : Machine) : Event → Machine → Prop where
  | run {want : ControlState} {waitMs : Nat} :
      (m.catchUp opt).state ≠ want → Posts opt m (.request want waitMs)
        ((m.catchUp opt).postRunLocked opt want)
  | retarget {url user pass : CStr} {waitMs : Nat} {want : Option NamedRun} :
      (m.catchUp opt).retryAfterSLocked opt = 0 → Posts opt m (.poolRequest url user pass waitMs want)
        ((m.catchUp opt).postPoolLocked opt url user pass [] false (want.map Subtype.val))
  | switch {algo url user pass : CStr} {waitMs : Nat} {want : Option NamedRun} :
      algo ≠ [] → (m.catchUp opt).retryAfterSLocked opt = 0 →
      Posts opt m (.algoRequest algo url user pass waitMs want)
        ((m.catchUp opt).postPoolLocked opt url user pass algo false (want.map Subtype.val))
  | restore {why : CStr} :
      (m.catchUp opt).canRestore = true → (m.catchUp opt).restoreInForce = false →
      Posts opt m (.switchFailed why)
        ((m.catchUp opt).postPoolLocked opt (m.catchUp opt).prev.url (m.catchUp opt).prev.user
          (m.catchUp opt).prev.pass (m.catchUp opt).prev.algo true none)

variable {opt : Options} {m m' m₁ : Machine} {e : Event} {mv : Move} {p₀ : Profile}

namespace Machine

/-- The changes posted, and the profile that the last switch left behind. -/
structure Saved where
  posted : List Mutation
  prev : Profile
  canRestore : Bool
  restoreInForce : Bool

def saved (m : Machine) : Saved := ⟨m.posted,m.prev,m.canRestore,m.restoreInForce⟩

def carriedOut (m : Machine) : Bool := m.pool.applied && !m.pool.refused

end Machine

@[simp] theorem settle_saved (m : Machine) (c : Option Nat) : (m.settleLocked c).2.saved = m.saved :=
  settle_frame saved (fun _ => rfl) (fun _ => rfl) (fun _ _ _ => rfl) m c

@[simp] theorem settle_carriedOut (m : Machine) (c : Option Nat) :
    (m.settleLocked c).2.carriedOut = m.carriedOut :=
  settle_frame carriedOut (fun _ => rfl) (fun _ => rfl) (fun _ _ _ => rfl) m c

theorem expire_frame {α : Type} (f : Machine → α)
    (hl : ∀ (m : Machine) (c : Option Nat), f (m.landUnanswered opt c) = f m)
    (hr : ∀ (m : Machine) (c : Option Nat) (why : CStr), f (m.rollbackLocked c .rolledBack why) = f m)
    (m : Machine) (cause : Option Nat) : f (m.expireLocked opt cause) = f m := by
  rcases expire_cases opt m cause with h | ⟨-,h⟩ | ⟨-,h⟩
  · rw [h]
  · rw [h,hl]
  · rw [h,hr]

@[simp] theorem expire_saved (m : Machine) (c : Option Nat) :
    (m.expireLocked opt c).saved = m.saved :=
  expire_frame saved (fun _ _ => rfl) (fun _ _ _ => rfl) m c

@[simp] theorem catchUp_saved (opt : Options) (m : Machine) : (m.catchUp opt).saved = m.saved := by
  rw [catchUp,expire_saved,settle_saved]

@[simp] theorem catchUp_carriedOut (opt : Options) (m : Machine) :
    (m.catchUp opt).carriedOut = m.carriedOut := by
  rw [catchUp,expire_frame carriedOut (fun _ _ => rfl) (fun _ _ _ => rfl),settle_carriedOut]

theorem judge_saved (kind : Kind) (own : Nat) : (m.judge opt kind own).1.saved = m.saved := by
  cases kind with
  | run want =>
    simp only [judge,judgeRun]
    split
    · rfl
    · split <;> rfl
  | pool =>
    simp only [judge,judgePool]
    split
    · split <;> rfl
    · split
      · exact expire_saved m _
      · rfl

@[simp] theorem waitPass_saved (opt : Options) (m : Machine) (kind : Kind) (own answerBy : Nat) :
    (m.waitPass opt kind own answerBy).1.saved = m.saved := by
  unfold waitPass
  split
  · exact judge_saved kind own
  · simp only
    split
    · exact settle_saved m none
    · rw [judge_saved,settle_saved]

@[simp] theorem awaitOwn_saved (opt : Options) (m : Machine) (kind : Kind) (waitMs : Nat) :
    (m.awaitOwn opt kind waitMs).saved = m.saved :=
  waitPass_saved opt m kind _ _

theorem parkPass_saved (m : Machine) (i gen : Nat) : (m.parkPass i gen).saved = m.saved := by
  unfold parkPass
  split
  · rfl
  · exact settle_saved (m.leavePark i gen) none

theorem controlPark_saved (m : Machine) (i : Nat) (retains : Bool) :
    (m.controlPark i retains).saved = m.saved := by
  unfold controlPark
  split
  · rfl
  · rw [parkPass_saved,settle_saved]
    rfl

theorem connected_saved (m : Machine) : m.controlPoolConnected.saved = m.saved := by
  unfold controlPoolConnected
  split
  · rfl
  · exact settle_saved (m.answerPool true) none

theorem rollback_prefix (cause : Option Nat) (o : Outcome) (why : CStr) :
    m.endings <+: (m.rollbackLocked cause o why).endings := by
  unfold rollbackLocked
  simp only
  split
  · exact List.prefix_append _ _
  · exact List.prefix_refl _

theorem fine_endings (h : fine opt m mv = some m') : m.endings <+: m'.endings := by
  cases mv with
  | tick | notes | explains | records | releases =>
    cases h
    exact List.prefix_refl _
  | sees | reads | enters | leaves | turnsBack | handsOver | postsPool | postsRun | takes |
      connects =>
    simp only [fine,Option.ite_none_right_eq_some,Option.some.injEq] at h
    obtain ⟨-,rfl⟩ := h
    exact List.prefix_refl _
  | lands =>
    simp only [fine,Option.ite_none_right_eq_some,Option.some.injEq] at h
    obtain ⟨-,rfl⟩ := h
    unfold land
    split <;> exact List.prefix_append _ _
  | landsUnanswered =>
    simp only [fine,Option.ite_none_right_eq_some,Option.some.injEq] at h
    obtain ⟨-,rfl⟩ := h
    exact List.prefix_append _ _
  | expires | timesOut =>
    simp only [fine,Option.ite_none_right_eq_some,Option.some.injEq] at h
    obtain ⟨-,rfl⟩ := h
    exact rollback_prefix _ _ _
  | refuses =>
    simp only [fine] at h
    split at h
    · simp only [Option.ite_none_left_eq_some,Option.some.injEq] at h
      obtain ⟨-,rfl⟩ := h
      exact rollback_prefix _ _ _
    · cases h
  | moves | writes | readsHold | returns =>
    simp only [fine] at h
    split at h
    · cases h
      exact List.prefix_refl _
    · cases h

theorem reach_endings {okf : Machine → Move → Prop} (h : Reach (fine opt) okf m m') :
    m.endings <+: m'.endings :=
  h.invariant (I := fun s => m.endings <+: s.endings) (List.prefix_refl _)
    fun _ _ _ hp _ hf => hp.trans (fine_endings hf)

theorem awaitOwn_endings (opt : Options) (m : Machine) (kind : Kind) (waitMs : Nat) :
    m.endings <+: (m.awaitOwn opt kind waitMs).endings := by
  have h : Reach (fine opt) free m (m.waitPass opt kind m.current (m.answerBy waitMs)).1 :=
    waitPass_moves trivial trivial (fun _ _ _ _ => ⟨trivial,trivial,fun _ _ _ => trivial⟩)
  have hp := reach_endings h
  exact hp

def OnFile (opt : Options) (m : Machine) (e : Event) (m' : Machine) : Prop :=
  m'.saved = m.saved ∨ judges opt e = true ∧ (m.catchUp opt).mutating = false ∧
    ∃ m₁, Posts opt m e m₁ ∧ m'.saved = m₁.saved ∧ m₁.endings <+: m'.endings

theorem request_posts (want : ControlState) (waitMs : Nat) :
    OnFile opt m (.request want waitMs) (m.controlRequest opt want waitMs) := by
  unfold controlRequest
  by_cases hc : opt.apiControl = true
  · by_cases hw : want = .switching
    · simp only [hc,hw,Bool.not_true,if_true,if_false,Bool.false_eq_true]
      exact .inl rfl
    · simp only [hc,hw,Bool.not_true,if_false,Bool.false_eq_true]
      split
      · exact .inl (catchUp_saved opt m)
      · rename_i hm
        split
        · exact .inl (catchUp_saved opt m)
        · rename_i hs
          exact .inr ⟨by simp [judges,hc,hw],Bool.eq_false_iff.mpr hm,_,.run hs,
            awaitOwn_saved opt _ _ _,awaitOwn_endings opt _ _ _⟩
  · simp only [hc,Bool.not_false,if_true]
    exact .inl rfl

theorem postOrRefuse_posts (opt : Options) (m : Machine) (what : String)
    (url user pass algo : CStr) (waitMs : Nat) (want : Option ControlState) :
    (m.postOrRefuse opt what url user pass algo waitMs want).saved = m.saved ∨
      (m.catchUp opt).mutating = false ∧ (m.catchUp opt).retryAfterSLocked opt = 0 ∧
      (m.postOrRefuse opt what url user pass algo waitMs want).saved =
        ((m.catchUp opt).postPoolLocked opt url user pass algo false want).saved ∧
      ((m.catchUp opt).postPoolLocked opt url user pass algo false want).endings <+:
        (m.postOrRefuse opt what url user pass algo waitMs want).endings := by
  unfold postOrRefuse
  simp only
  split
  · exact .inl (catchUp_saved opt m)
  · rename_i hm
    split
    · exact .inl (catchUp_saved opt m)
    · rename_i hr
      exact .inr ⟨Bool.eq_false_iff.mpr hm,Decidable.not_not.mp hr,awaitOwn_saved opt _ _ _,
        awaitOwn_endings opt _ _ _⟩

theorem poolRequest_posts (url user pass : CStr) (waitMs : Nat) (want : Option NamedRun) :
    OnFile opt m (.poolRequest url user pass waitMs want)
      (m.controlPoolRequest opt url user pass waitMs (want.map Subtype.val)) := by
  unfold controlPoolRequest
  by_cases hc : opt.apiControl = true
  · simp only [hc,Bool.not_true,if_false,Bool.false_eq_true]
    cases hu : poolUrlUsable opt url with
    | error complaint => exact .inl rfl
    | ok _ =>
      rcases postOrRefuse_posts opt m "the pool was changed" url user pass []
        waitMs (want.map Subtype.val) with h | ⟨hm,hr,h⟩
      · exact .inl h
      · exact .inr ⟨by simp [judges,hc,hu,Except.isOk,Except.toBool],hm,_,.retarget hr,h⟩
  · simp only [hc,Bool.not_false,if_true]
    exact .inl rfl

theorem algoRequest_posts (algo url user pass : CStr) (waitMs : Nat) (want : Option NamedRun) :
    OnFile opt m (.algoRequest algo url user pass waitMs want)
      (m.controlAlgoRequest opt algo url user pass waitMs (want.map Subtype.val)) := by
  unfold controlAlgoRequest
  by_cases hc : opt.apiControl = true
  · by_cases ha : algo = []
    · subst ha
      simp only [hc,List.isEmpty_nil,Bool.not_true,if_true,if_false,Bool.false_eq_true]
      exact .inl rfl
    · have hae : algo.isEmpty = false := by simpa using ha
      simp only [hc,hae,Bool.not_true,if_false,Bool.false_eq_true]
      cases hu : poolUrlUsable opt url with
      | error complaint => exact .inl rfl
      | ok _ =>
        rcases postOrRefuse_posts opt m "the miner was switched" url user pass
          algo waitMs (want.map Subtype.val) with h | ⟨hm,hr,h⟩
        · exact .inl h
        · exact .inr ⟨by simp [judges,hc,hae,hu,Except.isOk,Except.toBool],hm,_,.switch ha hr,h⟩
  · simp only [hc,Bool.not_false,if_true]
    exact .inl rfl

theorem step_saved (h : step opt m e = some m') : OnFile opt m e m' := by
  cases e with
  | tick | releaseAll =>
    cases h
    exact .inl rfl
  | status =>
    cases h
    exact .inl (catchUp_saved opt m)
  | seesPark i =>
    simp only [step] at h
    split at h
    · rw [Option.ite_none_right_eq_some] at h
      cases h.2
      exact .inl rfl
    · cases h
  | readsTerms i =>
    simp only [step] at h
    split at h
    · cases h
      exact .inl rfl
    · cases h
  | parks i =>
    simp only [step] at h
    split at h
    · cases h
      exact .inl (controlPark_saved m i _)
    · cases h
  | wakes i =>
    simp only [step] at h
    split at h
    · cases h
      exact .inl (parkPass_saved m i _)
    · cases h
  | request want waitMs =>
    cases h
    exact request_posts want waitMs
  | poolRequest url user pass waitMs want =>
    cases h
    exact poolRequest_posts url user pass waitMs want
  | algoRequest algo url user pass waitMs want =>
    cases h
    exact algoRequest_posts algo url user pass waitMs want
  | callerWakes c =>
    simp only [step,wakeCaller] at h
    split at h
    · cases h
      exact .inl (waitPass_saved opt m _ _ _)
    · cases h
  | switchFailed why =>
    cases h
    unfold controlSwitchFailed
    simp only
    split
    · exact .inl (catchUp_saved opt m)
    · rename_i hm
      simp only [Bool.or_eq_true,not_or,Bool.not_eq_true,Bool.not_eq_false'] at hm
      exact .inr ⟨rfl,hm.2,_,.restore (by simpa using hm.1.1) hm.1.2,rfl,List.prefix_refl _⟩
  | takes | moves | writes | readsHold | refuses =>
    simp only [step] at h
    split at h
    · try split at h
      all_goals cases h
      all_goals exact .inl rfl
    · cases h
  | acks =>
    simp only [step] at h
    split at h
    · cases h
      exact .inl (connected_saved _)
    · cases h
  | connected =>
    simp only [step] at h
    split at h
    · cases h
      exact .inl (connected_saved m)
    · cases h

theorem step_endings (h : step opt m e = some m') : m.endings <+: m'.endings :=
  reach_endings (step_moves h)

theorem catchUp_endings (opt : Options) (m : Machine) : m.endings <+: (m.catchUp opt).endings :=
  step_endings (show step opt m .status = some (m.catchUp opt) from rfl)

structure LastPool (m : Machine) (k : Nat) : Prop where
  kind : m.posted[k]?.map Mutation.kind = some .pool
  later : ∀ l, k < l → m.posted[l]?.map Mutation.kind ≠ some .pool

/-- Once a pool change has ended, the slot tells whether it landed. -/
structure Fate (m : Machine) : Prop where
  asking : m.mutating = true → m.poolSwitch = true → m.pool.refused = false
  told : ∀ k, LastPool m k → ∀ x ∈ m.endings, x.mutation = k → x.outcome.isLanded = m.carriedOut

variable {P : Mutation} {x : Ending} {k : Nat}

theorem LastPool.unique {l : Nat} (h : LastPool m k) (hl : LastPool m l) : k = l := by
  rcases Nat.lt_trichotomy k l with hlt | heq | hlt
  · exact absurd hl.kind (h.later l hlt)
  · exact heq
  · exact absurd h.kind (hl.later k hlt)

theorem LastPool.congr (h : LastPool m' k) (hp : m'.posted = m.posted) : LastPool m k :=
  ⟨hp ▸ h.kind,fun l hl => hp ▸ h.later l hl⟩

theorem InFlight.lastPool (h : InFlight m P) (hp : m.poolSwitch = true) : LastPool m m.current := by
  have hk := h.kind
  rw [if_pos hp] at hk
  refine ⟨by rw [h.current,Option.map_some,hk],fun l hl => ?_⟩
  have hpos := h.posted_pos
  simp only [Machine.current] at hl
  rw [List.getElem?_eq_none (by omega)]
  simp

theorem Books.before (h : Books p₀ m) (hm : m.mutating = true) (hx : x ∈ m.endings) :
    x.mutation < m.current := by
  have hmem := List.mem_map_of_mem (f := Ending.mutation) hx
  rw [h.once,hm,List.mem_range] at hmem
  exact hmem

theorem Books.ended_lt (h : Books p₀ m) (hx : x ∈ m.endings) : x.mutation < m.posted.length := by
  have hmem := List.mem_map_of_mem (f := Ending.mutation) hx
  rw [h.once,List.mem_range] at hmem
  omega

theorem Fate.frame (h : Fate m) (hp : m'.posted = m.posted) (he : m'.endings = m.endings)
    (hm : m'.mutating = m.mutating) (hs : m'.poolSwitch = m.poolSwitch)
    (ha : m'.pool.applied = m.pool.applied) (hr : m'.pool.refused = m.pool.refused) : Fate m' := by
  refine ⟨by rw [hm,hs,hr]; exact h.asking,fun k hk x hx hxk => ?_⟩
  rw [h.told k (hk.congr hp) x (he ▸ hx) hxk,carriedOut,carriedOut,ha,hr]

theorem Fate.close (h : Fate m) (hb : Books p₀ m) (hf : InFlight m P) (hm : m.mutating = true)
    (hn : m'.mutating = false) (hp : m'.posted = m.posted) (he : m'.endings = m.endings ++ [x])
    (hx : x.mutation = m.current)
    (hpool : m.poolSwitch = true → x.outcome.isLanded = m'.carriedOut)
    (hrun : m.poolSwitch = false → m'.carriedOut = m.carriedOut) : Fate m' := by
  refine ⟨fun hmu => absurd (hn.symm.trans hmu) (by decide),fun k hk y hy hyk => ?_⟩
  have hlast : LastPool m k := hk.congr hp
  rw [he] at hy
  cases hs : m.poolSwitch with
  | true =>
    have hcur : k = m.current := hlast.unique (hf.lastPool hs)
    rcases List.mem_append.mp hy with hy | hy
    · have hlt := hb.before hm hy
      omega
    · cases List.mem_singleton.mp hy
      exact hpool hs
  | false =>
    rw [hrun hs]
    rcases List.mem_append.mp hy with hy | hy
    · exact h.told k hlast y hy hyk
    · cases List.mem_singleton.mp hy
      have hkind := hf.kind
      have hlk := hlast.kind
      rw [← hyk,hx,hf.current,Option.map_some,hkind,hs] at hlk
      simp at hlk

theorem Fate.rollback (h : Fate m) (hb : Books p₀ m) (hm : m.mutating = true) (m₁ : Machine)
    (hp : m₁.posted = m.posted) (he : m₁.endings = m.endings) (hmu : m₁.mutating = true)
    {cause : Option Nat} {o : Outcome} (ho : o.isLanded = false) (why : CStr)
    (hpool : m.poolSwitch = true → m₁.carriedOut = false)
    (hrun : m.poolSwitch = false → m₁.carriedOut = m.carriedOut) :
    Fate (m₁.rollbackLocked cause o why) := by
  obtain ⟨P,hf⟩ := hb.inFlight hm
  refine h.close hb hf hm rfl hp (by rw [rollback_endings hmu,he]) ?_ (fun hs => ?_) hrun
  · simp only [current,hp]
  · exact ho.trans (hpool hs).symm

theorem Fate.land (h : Fate m) (hb : Books p₀ m) (hs : Sound m) (hset : m.settles = true) :
    Fate m.land := by
  have hst : m.state = .switching := by
    simp only [settles,Bool.and_eq_true,decide_eq_true_eq] at hset
    exact hset.1
  have hm : m.mutating = true := hs.phased.busy.mpr hst
  obtain ⟨P,hf⟩ := hb.inFlight hm
  unfold Machine.land
  split
  · rename_i hp
    refine h.close hb hf hm rfl rfl rfl rfl (fun _ => ?_) (fun hn => ?_)
    · have ha := hs.settles_applied hset hp
      have hr := h.asking hm hp
      show true = (m.pool.applied && !m.pool.refused)
      rw [ha,hr]
      rfl
    · exact absurd (hp.symm.trans hn) (by decide)
  · rename_i hp
    exact h.close hb hf hm rfl rfl rfl rfl (fun hn => absurd hn hp) (fun _ => rfl)

theorem postPool_posted (m : Machine) (url user pass algo : CStr) (restore : Bool)
    (want : Option ControlState) :
    (m.postPoolLocked opt url user pass algo restore want).posted = m.posted ++ [⟨.pool,m.triple,
      ⟨m.profile.after ⟨url,user,pass,algo,false,false,false,false,false⟩,want.getD m.state⟩,
      m.epoch,m.switches⟩] := rfl

theorem postRun_posted (m : Machine) (want : ControlState) :
    (m.postRunLocked opt want).posted =
      m.posted ++ [⟨.run want,m.triple,⟨m.profile,want⟩,m.epoch,m.switches⟩] := rfl

theorem Fate.postPool (h : Books p₀ m) (url user pass algo : CStr) (restore : Bool)
    (want : Option ControlState) : Fate (m.postPoolLocked opt url user pass algo restore want) := by
  refine ⟨fun _ _ => rfl,fun k hk x hx hxk => ?_⟩
  have hlt := h.ended_lt (x := x) hx
  refine absurd ?_ (hk.later m.posted.length (by omega))
  rw [postPool_posted,List.getElem?_concat_length]
  rfl

theorem Fate.postRun (h : Fate m) (hb : Books p₀ m) (hs : Sound m) (hm : m.mutating = false) (want : ControlState) :
    Fate (m.postRunLocked opt want) := by
  refine ⟨fun _ hp => ?_,fun k hk x hx hxk => ?_⟩
  · have hmut := hs.phased.mutating (show m.poolSwitch = true from hp)
    exact absurd (hm.symm.trans hmut) (by decide)
  · have hposted (l : Nat) (hl : l < m.posted.length) :
        (m.postRunLocked opt want).posted[l]? = m.posted[l]? := List.getElem?_append_left hl
    have hlt : k < m.posted.length := hxk ▸ hb.ended_lt (x := x) hx
    refine h.told k ⟨hposted k hlt ▸ hk.kind,fun l hl hkind => ?_⟩ x hx hxk
    have hll : l < m.posted.length := by
      refine Nat.lt_of_not_le (fun hge => ?_)
      rw [List.getElem?_eq_none hge] at hkind
      cases hkind
    exact hk.later l hl (hposted l hll ▸ hkind)

theorem Fate.fine (h : Fate m) (hb : Books p₀ m) (hs : Sound m) (hu : Underway anyChange m)
    (hk : Orderly m mv) (hf : fine opt m mv = some m') : Fate m' := by
  cases mv with
  | tick | notes | explains | records =>
    cases hf
    exact h.frame rfl rfl rfl rfl rfl rfl
  | sees | reads | enters | leaves | turnsBack | handsOver | connects =>
    simp only [Control.fine,Option.ite_none_right_eq_some,Option.some.injEq] at hf
    obtain ⟨-,rfl⟩ := hf
    exact h.frame rfl rfl rfl rfl rfl rfl
  | lands =>
    simp only [Control.fine,Option.ite_none_right_eq_some,Option.some.injEq] at hf
    obtain ⟨hset,rfl⟩ := hf
    exact h.land hb hs hset
  | landsUnanswered cause =>
    simp only [Control.fine,Option.ite_none_right_eq_some,Option.some.injEq] at hf
    obtain ⟨⟨hst,-,hp,ha⟩,rfl⟩ := hf
    have hm : m.mutating = true := hs.phased.busy.mpr hst
    obtain ⟨P,hP⟩ := hb.inFlight hm
    refine h.close hb hP hm rfl rfl rfl rfl (fun _ => ?_) (fun _ => rfl)
    show true = (m.pool.applied && !m.pool.refused)
    rw [ha,h.asking hm hp]
    rfl
  | expires cause =>
    simp only [Control.fine,Option.ite_none_right_eq_some,Option.some.injEq] at hf
    obtain ⟨⟨hst,-,hp⟩,rfl⟩ := hf
    have hm : m.mutating = true := hs.phased.busy.mpr hst
    refine h.rollback hb hm m rfl rfl hm rfl _ (fun hs' => ?_) (fun _ => rfl)
    have ha : m.pool.applied = false := by simpa [hs'] using hp
    simp [carriedOut,ha]
  | timesOut want own =>
    simp only [Control.fine,Option.ite_none_right_eq_some,Option.some.injEq] at hf
    obtain ⟨-,rfl⟩ := hf
    obtain ⟨-,rfl,hkind⟩ := hk
    cases hm : m.mutating with
    | true =>
      refine h.rollback hb hm m rfl rfl hm rfl _ (fun hp => ?_) (fun _ => rfl)
      obtain ⟨P,hP⟩ := hb.inFlight hm
      have hpk := (hP.lastPool hp).kind
      rw [hkind] at hpk
      cases hpk
    | false =>
      have hp := hs.phased.not_pool hm
      exact h.frame rfl (rollback_quiet hm _ _ _) hm.symm hp.symm rfl rfl
  | postsPool url user pass algo restore want =>
    simp only [Control.fine,Option.ite_none_right_eq_some,Option.some.injEq] at hf
    obtain ⟨-,rfl⟩ := hf
    exact Fate.postPool hb url user pass algo restore want
  | postsRun want =>
    simp only [Control.fine,Option.ite_none_right_eq_some,Option.some.injEq] at hf
    obtain ⟨⟨hm,-⟩,rfl⟩ := hf
    exact h.postRun hb hs hm want
  | takes =>
    simp only [Control.fine,Option.ite_none_right_eq_some,Option.some.injEq] at hf
    obtain ⟨⟨-,hq⟩,rfl⟩ := hf
    obtain ⟨hp,-,-⟩ := hs.phased.handed hq
    have hm := hs.phased.mutating hp
    obtain ⟨P,hP⟩ := hb.inFlight hm
    refine ⟨fun _ _ => h.asking hm hp,fun k hk x hx hxk => ?_⟩
    have hcur : k = m.current := (hk.congr (m := m) rfl).unique (hP.lastPool hp)
    have hlt := hb.before hm hx
    omega
  | refuses why =>
    simp only [Control.fine] at hf
    split at hf
    · rename_i p hook k ha
      simp only [Option.ite_none_left_eq_some,Option.some.injEq] at hf
      obtain ⟨-,rfl⟩ := hf
      obtain ⟨hp,-,-⟩ := hu (by rw [ha]; rfl)
      have hm := hs.phased.mutating hp
      refine h.rollback hb hm m.markRefused rfl rfl hm rfl _ (fun _ => ?_) (fun hn => ?_)
      · simp [carriedOut,markRefused]
      · exact absurd (hp.symm.trans hn) (by decide)
    · cases hf
  | moves | writes | readsHold | returns =>
    simp only [Control.fine] at hf
    split at hf
    · cases hf
      exact h.frame rfl rfl rfl rfl rfl rfl
    · cases hf
  | releases => exact hk.1.1.elim

/-- A run in order, with the fate of the last pool change told. -/
structure Fated (p₀ : Profile) (m : Machine) : Prop where
  ordered : Ordered p₀ m
  fate : Fate m

theorem Fated.step (h : Fated p₀ m) (ht : InOrder opt m e) (hs : step opt m e = some m') :
    Fated p₀ m' :=
  (step_moves hs).invariant h fun _ _ _ hm hw hf =>
    have hk := hw.orderly h.ordered.books hm.ordered.books ht hf
    have hs := hm.ordered.tracked.sound
    have hu := hm.ordered.tracked.underway
    ⟨⟨⟨hs.fine hk.1.1 hf,hu.fine hs hk.1 hf⟩,hm.ordered.books.fine hs hu hk hf⟩,
      hm.fate.fine hm.ordered.books hs hu hk hf⟩

theorem fated_start (n : Nat) (p : Profile) (hook : Bool) : Fated p (start n p hook) :=
  ⟨ordered_start n p hook,⟨fun hm => (by cases hm),fun _ _ _ hx => (by cases hx)⟩⟩

theorem Fated.catchUp (h : Fated p₀ m) (ht : InOrder opt m e) (hj : judges opt e = true) :
    Fated p₀ (m.catchUp opt) :=
  h.step (e := .status) ⟨⟨by simp,fun _ => ht.1.2 hj⟩,rfl⟩ rfl

namespace Machine

def landedAt (m : Machine) (k : Nat) : Bool :=
  m.endings.any (fun x => x.mutation == k && x.outcome.isLanded)

end Machine

theorem Books.ending_at (h : Books p₀ m) (hx : x ∈ m.endings) :
    m.endings[x.mutation]? = some x := by
  obtain ⟨i,hi⟩ := List.mem_iff_getElem?.mp hx
  have hone := congrArg (fun l => l[i]?) h.once
  simp only [List.getElem?_map,hi,Option.map_some] at hone
  obtain ⟨hlt,heq⟩ := List.getElem?_eq_some_iff.mp hone.symm
  rw [List.getElem_range] at heq
  rw [← heq,hi]

theorem Books.ending_number (h : Books p₀ m) (hk : m.endings[k]? = some x) : x.mutation = k := by
  have hone := congrArg (fun l => l[k]?) h.once
  simp only [List.getElem?_map,hk,Option.map_some] at hone
  obtain ⟨hlt,heq⟩ := List.getElem?_eq_some_iff.mp hone.symm
  rw [List.getElem_range] at heq
  exact heq.symm

theorem Books.landedAt_eq (h : Books p₀ m) (k : Nat) :
    m.landedAt k = (m.endings[k]?).any (fun x => x.outcome.isLanded) := by
  rw [Bool.eq_iff_iff]
  simp only [landedAt,List.any_eq_true,Bool.and_eq_true,beq_iff_eq,Option.any_eq_true]
  constructor
  · rintro ⟨x,hx,rfl,hl⟩
    exact ⟨x,h.ending_at hx,hl⟩
  · rintro ⟨x,hx,hl⟩
    exact ⟨x,List.mem_of_getElem? hx,h.ending_number hx,hl⟩

theorem Books.endings_length (h : Books p₀ m) :
    m.endings.length = m.posted.length-m.mutating.toNat := by
  have hone := congrArg List.length h.once
  rwa [List.length_map,List.length_range] at hone

theorem Books.landedAt_stable (h : Books p₀ m) (h' : Books p₀ m') (he : m.endings <+: m'.endings)
    (hk : k < m.endings.length) : m'.landedAt k = m.landedAt k := by
  obtain ⟨more,hmore⟩ := he
  rw [h.landedAt_eq,h'.landedAt_eq,← hmore,List.getElem?_append_left hk]

/-- The machine, what each of its changes was posted for, and the numbers of three of
them: the last one with a pool in it, the last switch that was asked for, and the one in
force before the first of these. -/
structure Journal where
  machine : Machine
  asked : List Ask
  slot : Option Nat
  recorded : Option Nat
  standing : Option Nat

namespace Journal

/-- The profile change that was carried out last. -/
def inForce (j : Journal) : Option Nat :=
  if j.machine.carriedOut then j.slot else j.standing

def post (j : Journal) (m : Machine) (a : Ask) : Journal where
  machine := m
  asked := j.asked ++ [a]
  slot := if a = .run then j.slot else some j.asked.length
  recorded := if a = .switch then some j.asked.length else j.recorded
  standing := if a = .run then j.standing else j.inForce

def step (opt : Options) (j : Journal) (e : Event) : Option Journal :=
  (Control.step opt j.machine e).map (fun m =>
    if m.posted.length = j.machine.posted.length then { j with machine := m } else j.post m e.ask)

def start (n : Nat) (p : Profile) (hook : Bool) : Journal :=
  ⟨Machine.start n p hook,[],none,none,none⟩

end Journal

/-- `k` is the last place in `l` of one that is `p`. -/
structure Latest (p : Ask → Prop) (l : List Ask) (k : Nat) : Prop where
  here : ∃ a, l[k]? = some a ∧ p a
  later : ∀ i a, k < i → l[i]? = some a → ¬ p a

/-- The change `i` is the last one before `k` that brought a profile. -/
structure LandedLast (j : Journal) (k i : Nat) : Prop where
  before : i < k
  landed : j.machine.landedAt i = true
  alone : ∀ l < k, i < l → j.machine.landedAt l = true → j.asked[l]? = some .run

structure Kept (p₀ : Profile) (j : Journal) : Prop where
  fated : Fated p₀ j.machine
  length : j.asked.length = j.machine.posted.length
  kinds : ∀ (k : Nat) (a : Ask), j.asked[k]? = some a →
    (j.machine.posted[k]?.map Mutation.kind = some .pool ↔ a ≠ .run)
  slot : ∀ k, j.slot = some k → Latest (· ≠ .run) j.asked k
  recorded : ∀ i, j.recorded = some i → Latest (· = .switch) j.asked i ∧
    j.machine.posted[i]?.map (·.before.profile) = some j.machine.prev
  known : j.machine.canRestore = true →
    (∃ i, j.recorded = some i) ∧ j.machine.prev.algo ≠ [] ∧ j.machine.prev.url ≠ []
  standing : ∀ i, j.standing = some i → ∃ k, j.slot = some k ∧ LandedLast j k i

variable {j j' : Journal} {p : Ask → Prop} {l : List Ask} {a : Ask}

theorem Latest.lt (h : Latest p l k) : k < l.length := by
  obtain ⟨a,ha,-⟩ := h.here
  exact (List.getElem?_eq_some_iff.mp ha).1

theorem Latest.append (h : Latest p l k) (ha : ¬ p a) : Latest p (l ++ [a]) k := by
  refine ⟨?_,fun i b hi hb => ?_⟩
  · obtain ⟨b,hb,hp⟩ := h.here
    exact ⟨b,by rw [List.getElem?_append_left h.lt,hb],hp⟩
  · rcases Nat.lt_or_ge i l.length with hlt | hge
    · rw [List.getElem?_append_left hlt] at hb
      exact h.later i b hi hb
    · have hmem := List.mem_of_getElem? ((List.getElem?_append_right hge).symm.trans hb)
      rw [List.mem_singleton.mp hmem]
      exact ha

theorem Latest.last (l : List Ask) (ha : p a) : Latest p (l ++ [a]) l.length := by
  refine ⟨⟨a,List.getElem?_concat_length,ha⟩,fun i b hi hb => ?_⟩
  rw [List.getElem?_eq_none (by simp; omega)] at hb
  cases hb

theorem LandedLast.congr {i : Nat} (h : LandedLast j k i)
    (hl : ∀ l < k, j'.machine.landedAt l = j.machine.landedAt l)
    (ha : ∀ l < k, j'.asked[l]? = j.asked[l]?) : LandedLast j' k i := by
  refine ⟨h.before,by rw [hl i h.before]; exact h.landed,fun l hlk hil hll => ?_⟩
  rw [hl l hlk] at hll
  rw [ha l hlk]
  exact h.alone l hlk hil hll

theorem Kept.ended_before (h : Kept p₀ j) (hk : k < j.asked.length) {l : Nat} (hl : l < k) :
    l < j.machine.endings.length := by
  have hlen := h.fated.ordered.books.endings_length
  have hmut : j.machine.mutating.toNat ≤ 1 := Bool.toNat_le _
  rw [h.length] at hk
  omega

theorem Kept.same (h : Kept p₀ j) (hf : Fated p₀ m) (hs : m.saved = j.machine.saved)
    (he : j.machine.endings <+: m.endings) : Kept p₀ { j with machine := m } := by
  have hposted : m.posted = j.machine.posted := congrArg Saved.posted hs
  have hprev : m.prev = j.machine.prev := congrArg Saved.prev hs
  have hcan : m.canRestore = j.machine.canRestore := congrArg Saved.canRestore hs
  refine ⟨hf,by rw [hposted]; exact h.length,by rw [hposted]; exact h.kinds,h.slot,
    by rw [hposted,hprev]; exact h.recorded,by rw [hcan,hprev]; exact h.known,fun i hi => ?_⟩
  obtain ⟨k,hk,hl⟩ := h.standing i hi
  refine ⟨k,hk,hl.congr (fun l hlk => ?_) (fun _ _ => rfl)⟩
  exact h.fated.ordered.books.landedAt_stable hf.ordered.books he
    (h.ended_before (h.slot k hk).lt hlk)

theorem Kept.lastPool (h : Kept p₀ j) (hk : j.slot = some k) : LastPool j.machine k := by
  obtain ⟨⟨a,ha,hp⟩,hlater⟩ := h.slot k hk
  refine ⟨(h.kinds k a ha).mpr hp,fun l hl hkind => ?_⟩
  have hlt : l < j.asked.length := by
    rw [h.length]
    refine Nat.lt_of_not_le (fun hge => ?_)
    rw [List.getElem?_eq_none hge] at hkind
    cases hkind
  exact hlater l _ hl (List.getElem?_eq_getElem hlt)
    ((h.kinds l _ (List.getElem?_eq_getElem hlt)).mp hkind)

theorem Kept.slot_landed (h : Kept p₀ j) (hm : j.machine.mutating = false) (hk : j.slot = some k) :
    j.machine.landedAt k = j.machine.carriedOut := by
  have hb := h.fated.ordered.books
  have hlt : k < j.machine.endings.length := by
    have hkl := (h.slot k hk).lt
    have hlen := hb.endings_length
    rw [hm] at hlen
    rw [h.length] at hkl
    exact hlen ▸ hkl
  have hget := List.getElem?_eq_getElem hlt
  rw [hb.landedAt_eq,hget,Option.any_some]
  exact h.fated.fate.told k (h.lastPool hk) _ (List.getElem_mem hlt) (hb.ending_number hget)

theorem Kept.landedLast (h : Kept p₀ j) (hm : j.machine.mutating = false) {i : Nat}
    (hi : j.inForce = some i) : LandedLast j j.asked.length i := by
  have hrun {k l : Nat} (hk : j.slot = some k) (hl : l < j.asked.length) (hkl : k < l) :
      j.asked[l]? = some .run := by
    have hget := List.getElem?_eq_getElem hl
    rw [hget,Option.some.injEq]
    exact Decidable.not_not.mp ((h.slot k hk).later l _ hkl hget)
  unfold Journal.inForce at hi
  split at hi
  · rename_i hc
    exact ⟨(h.slot i hi).lt,(h.slot_landed hm hi).trans hc,fun l hl hil _ => hrun hi hl hil⟩
  · rename_i hc
    obtain ⟨k,hk,hlast⟩ := h.standing i hi
    refine ⟨Nat.lt_trans hlast.before (h.slot k hk).lt,hlast.landed,fun l hl hil hll => ?_⟩
    rcases Nat.lt_trichotomy l k with hlk | rfl | hkl
    · exact hlast.alone l hlk hil hll
    · rw [h.slot_landed hm hk] at hll
      exact absurd hll hc
    · exact hrun hk hl hkl

theorem getElem?_snoc {α : Type} {l : List α} {a b : α} {i : Nat} (h : (l ++ [a])[i]? = some b) :
    l[i]? = some b ∧ i < l.length ∨ i = l.length ∧ b = a := by
  rcases Nat.lt_trichotomy i l.length with hlt | rfl | hgt
  · rw [List.getElem?_append_left hlt] at h
    exact .inl ⟨h,hlt⟩
  · rw [List.getElem?_concat_length,Option.some.injEq] at h
    exact .inr ⟨rfl,h.symm⟩
  · rw [List.getElem?_eq_none (by simp; omega)] at h
    cases h

theorem Kept.post (h : Kept p₀ j) (hm : j.machine.mutating = false) (hf : Fated p₀ m')
    (ha : P.kind = .pool ↔ a ≠ .run) (hp : m'.posted = j.machine.posted ++ [P])
    (he : j.machine.endings <+: m'.endings)
    (hs : a = .switch → m'.prev = P.before.profile ∧
      (m'.canRestore = true → m'.prev.algo ≠ [] ∧ m'.prev.url ≠ []))
    (hk : a ≠ .switch → m'.prev = j.machine.prev ∧ m'.canRestore = j.machine.canRestore) :
    Kept p₀ (j.post m' a) := by
  have hb := h.fated.ordered.books
  have hlen : j.machine.endings.length = j.asked.length := by
    rw [hb.endings_length,hm,h.length]
    rfl
  have hold {l : Nat} (hl : l < j.asked.length) : m'.posted[l]? = j.machine.posted[l]? := by
    rw [hp,List.getElem?_append_left (h.length ▸ hl)]
  have hlast {k i : Nat} (hki : k ≤ j.asked.length) (hl : LandedLast j k i) :
      LandedLast (j.post m' a) k i :=
    hl.congr (fun l hlk => hb.landedAt_stable hf.ordered.books he (by omega))
      (fun l hlk => List.getElem?_append_left (by omega))
  refine ⟨hf,?_,fun k b hkb => ?_,fun k hkk => ?_,fun i hi => ?_,fun hcan => ?_,fun i hi => ?_⟩
  · simp [Journal.post,hp,h.length]
  · rcases getElem?_snoc hkb with ⟨hkb,hlt⟩ | ⟨rfl,rfl⟩
    · rw [show (j.post m' a).machine.posted[k]? = _ from hold hlt]
      exact h.kinds k b hkb
    · rw [← ha,show (j.post m' b).machine.posted = _ from hp,h.length,
        List.getElem?_concat_length,Option.map_some,Option.some.injEq]
  · simp only [Journal.post] at hkk ⊢
    split at hkk
    · rename_i hrun
      exact (h.slot k hkk).append (fun hne => hne hrun)
    · rename_i hne
      cases hkk
      exact Latest.last j.asked hne
  · simp only [Journal.post] at hi ⊢
    split at hi
    · rename_i hsw
      cases hi
      refine ⟨Latest.last j.asked hsw,?_⟩
      rw [hp,h.length,List.getElem?_concat_length,(hs hsw).1]
      rfl
    · rename_i hsw
      obtain ⟨hl,hprev⟩ := h.recorded i hi
      refine ⟨hl.append hsw,?_⟩
      rw [hold hl.lt,(hk hsw).1,hprev]
  · by_cases hsw : a = .switch
    · exact ⟨⟨j.asked.length,if_pos hsw⟩,(hs hsw).2 hcan⟩
    · obtain ⟨⟨i,hi⟩,hne⟩ := h.known ((hk hsw).2 ▸ hcan)
      refine ⟨⟨i,(if_neg hsw).trans hi⟩,?_⟩
      rw [show (j.post m' a).machine.prev = _ from (hk hsw).1]
      exact hne
  · simp only [Journal.post] at hi
    split at hi
    · rename_i hrun
      obtain ⟨k,hkk,hl⟩ := h.standing i hi
      exact ⟨k,(if_pos hrun).trans hkk,hlast (Nat.le_of_lt (h.slot k hkk).lt) hl⟩
    · rename_i hne
      exact ⟨j.asked.length,if_neg hne,hlast (Nat.le_refl _) (h.landedLast hm hi)⟩

theorem kept_start (n : Nat) (p : Profile) (hook : Bool) : Kept p (Journal.start n p hook) := by
  refine ⟨fated_start n p hook,rfl,?_,?_,?_,?_,?_⟩
  · intro k a hk
    cases hk
  · intro k hk
    cases hk
  · intro i hi
    cases hi
  · intro hc
    cases hc
  · intro i hi
    cases hi

/-- Posting for `a` takes `c` to `m`, with the change `P`. -/
structure Leaves (c m : Machine) (a : Ask) (P : Mutation) : Prop where
  posted : m.posted = c.posted ++ [P]
  before : P.before = c.triple
  kind : P.kind = .pool ↔ a ≠ .run
  saves : a = .switch → m.prev = P.before.profile ∧
    (m.canRestore = true → m.prev.algo ≠ [] ∧ m.prev.url ≠ [])
  keeps : a ≠ .switch → m.prev = c.prev ∧ m.canRestore = c.canRestore

theorem Posts.leaves (h : Posts opt m e m₁) :
    m₁.endings = (m.catchUp opt).endings ∧ ∃ P, Leaves (m.catchUp opt) m₁ e.ask P := by
  cases h with
  | run hs =>
    refine ⟨rfl,_,rfl,rfl,?_,fun ha => ?_,fun _ => ⟨rfl,rfl⟩⟩
    · simp [Event.ask]
    · cases ha
  | retarget hr =>
    refine ⟨rfl,_,rfl,rfl,?_,fun ha => ?_,fun _ => ⟨rfl,rfl⟩⟩
    · simp [Event.ask]
    · cases ha
  | switch ha hr =>
    refine ⟨rfl,_,rfl,rfl,?_,fun _ => ?_,fun hn => absurd rfl hn⟩
    · simp [Event.ask]
    · simp [postPoolLocked,setStateLocked,triple,ha]
  | restore =>
    refine ⟨rfl,_,rfl,rfl,?_,fun ha => ?_,fun _ => ?_⟩
    · simp [Event.ask]
    · cases ha
    · simp [postPoolLocked,setStateLocked]

theorem Leaves.pool_target {c : Machine} {url user pass algo : CStr} {restore : Bool}
    {want : Option ControlState}
    (h : Leaves c (c.postPoolLocked opt url user pass algo restore want) a P) :
    P.target = ⟨c.profile.after ⟨url,user,pass,algo,false,false,false,false,false⟩,
      want.getD c.state⟩ := by
  have heq := List.append_cancel_left (h.posted.symm.trans (postPool_posted _ _ _ _ _ _ _))
  rw [List.singleton_inj.mp heq]

theorem Leaves.run_target {c : Machine} {want : ControlState}
    (h : Leaves c (c.postRunLocked opt want) a P) : P.target = ⟨c.profile,want⟩ := by
  have heq := List.append_cancel_left (h.posted.symm.trans (postRun_posted _ _))
  rw [List.singleton_inj.mp heq]

/-- What a step in order does to the journal: the machine moves on, or the change that
`e` asks for is posted by a machine at rest. -/
inductive Turn (opt : Options) (p₀ : Profile) (j : Journal) (e : Event) : Journal → Prop where
  | stays {m : Machine} : m.saved = j.machine.saved → j.machine.endings <+: m.endings →
      Kept p₀ { j with machine := m } → Turn opt p₀ j e { j with machine := m }
  | posts {m m₁ : Machine} {P : Mutation} : Kept p₀ { j with machine := j.machine.catchUp opt } →
      (j.machine.catchUp opt).mutating = false → Posts opt j.machine e m₁ →
      Leaves (j.machine.catchUp opt) m₁ e.ask P → m.saved = m₁.saved →
      (j.machine.catchUp opt).endings <+: m.endings →
      Kept p₀ (j.post m e.ask) → Turn opt p₀ j e (j.post m e.ask)

theorem Leaves.congr {c : Machine} (h : Leaves c m₁ a P) (hs : m.saved = m₁.saved) :
    Leaves c m a P := by
  have hposted : m.posted = m₁.posted := congrArg Saved.posted hs
  have hprev : m.prev = m₁.prev := congrArg Saved.prev hs
  have hcan : m.canRestore = m₁.canRestore := congrArg Saved.canRestore hs
  exact ⟨hposted ▸ h.posted,h.before,h.kind,by rw [hprev,hcan]; exact h.saves,
    by rw [hprev,hcan]; exact h.keeps⟩

theorem Kept.turn (h : Kept p₀ j) (ht : InOrder opt j.machine e) (hs : j.step opt e = some j') :
    Turn opt p₀ j e j' := by
  obtain ⟨m,hm,rfl⟩ := Option.map_eq_some_iff.mp hs
  have hf := h.fated.step ht hm
  rcases step_saved hm with hsaved | ⟨hj,hrest,m₁,hp,hsaved,hend⟩
  · have hlen : m.posted.length = j.machine.posted.length :=
      congrArg (fun s => s.posted.length) hsaved
    rw [if_pos hlen]
    exact .stays hsaved (step_endings hm) (h.same hf hsaved (step_endings hm))
  · obtain ⟨hends,P,hl⟩ := hp.leaves
    have hc := h.same (h.fated.catchUp ht hj) (catchUp_saved opt j.machine)
      (catchUp_endings opt j.machine)
    have hl' := hl.congr hsaved
    have hposted : (j.machine.catchUp opt).posted = j.machine.posted :=
      congrArg Saved.posted (catchUp_saved opt j.machine)
    have hne : m.posted.length ≠ j.machine.posted.length := by
      rw [hl'.posted,hposted]
      simp
    have hpost : ({ j with machine := j.machine.catchUp opt } : Journal).post m e.ask =
        j.post m e.ask := by
      simp [Journal.post,Journal.inForce]
    rw [if_neg hne]
    refine .posts hc hrest hp hl hsaved (hends ▸ hend) (hpost ▸ ?_)
    exact hc.post hrest hf hl'.kind hl'.posted (hends ▸ hend) hl'.saves hl'.keeps

end VkMiner.Control
