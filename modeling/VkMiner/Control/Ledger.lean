import VkMiner.Control.Parking
set_option autoImplicit false

/-! The history of the changes: each ends once, as a whole, and on its own account. -/

namespace VkMiner.Control
open Machine Runs

variable {opt : Options} {m m' m₁ : Machine} {e : Event} {mv : Move} {p₀ : Profile}
  {P : Mutation}

/-- A change that landed brought all of its target, and one that did not left
everything as it was. -/
def Ending.Whole (e : Ending) (P : Mutation) : Prop :=
  if e.outcome.isLanded then
    e.triple = P.target ∧ e.epoch = P.epoch+1 ∧ e.switches = P.switches+1
  else e.triple = P.before ∧ e.epoch = P.epoch ∧ e.switches = P.switches

/-- How far the stratum thread has got with the change `P`, number `k`. -/
def Midway (a : Apply) (profile : Profile) (P : Mutation) (k : Nat) : Prop :=
  match a with
  | .taken p _ j =>
    j = k ∧ profile = P.before.profile ∧ P.target.profile = P.before.profile.after p
  | .moved p j =>
    j = k ∧ profile = P.before.profile.withAlgo p ∧
      P.target.profile = P.before.profile.after p
  | _ => profile = P.target.profile

structure InFlight (m : Machine) (P : Mutation) : Prop where
  last : m.posted.getLast? = some P
  epoch : P.epoch = m.epoch
  switches : P.switches = m.switches
  before : P.before.run = m.previous
  target : P.target.run = m.pending
  kind : P.kind = if m.poolSwitch then .pool else .run m.pending
  fresh : m.poolSwitch = false → m.pending ≠ m.previous
  plain : m.poolSwitch = false →
    m.profile = P.before.profile ∧ P.target.profile = P.before.profile
  asked : m.poolSwitch = true → m.pool.applied = false →
    m.profile = P.before.profile ∧ P.target.profile = P.before.profile.after m.pool
  applied : m.poolSwitch = true → m.pool.applied = true →
    Midway m.apply m.profile P m.current

/-- What is in force while nothing is in flight. -/
structure AtRest (p₀ : Profile) (m : Machine) : Prop where
  triple : m.triple = (m.endings.getLast?.map Ending.triple).getD ⟨p₀,.running⟩
  state : m.state = m.pending
  run : ∀ P want, m.posted.getLast? = some P → P.kind = .run want →
    m.state = want ∨ m.state = m.previous

structure Books (p₀ : Profile) (m : Machine) : Prop where
  once : m.endings.map Ending.mutation = List.range (m.posted.length-m.mutating.toNat)
  whole : ∀ e ∈ m.endings, ∃ P, m.posted[e.mutation]? = some P ∧ e.Whole P
  own : ∀ e ∈ m.endings, e.outcome = .refused → e.cause = some e.mutation
  epoch : m.epoch = m.endings.countP (fun e => e.outcome.isLanded)
  switches : m.switches = m.endings.countP (fun e => e.outcome.isLanded)
  callers : ∀ c ∈ m.callers, ∀ own, c.mutation = some own →
    m.posted[own]?.map Mutation.kind = some c.kind
  inFlight : m.mutating = true → ∃ P, InFlight m P
  atRest : m.mutating = false → AtRest p₀ m

theorem last_get {α : Type} {l : List α} {a : α} (h : l.getLast? = some a) :
    l[l.length-1]? = some a := by
  rw [← List.getLast?_eq_getElem?,h]

theorem InFlight.current (h : InFlight m P) : m.posted[m.current]? = some P := last_get h.last

theorem InFlight.posted_pos (h : InFlight m P) : 0 < m.posted.length := by
  have hl := h.last
  cases hp : m.posted with
  | nil => simp [hp] at hl
  | cons _ _ => simp

theorem Midway.done {a : Apply} {profile : Profile} {k : Nat} (h : Midway a profile P k)
    (ha : a.applies anyChange = false) : profile = P.target.profile := by
  cases a with
  | taken | moved => simp [Apply.applies,anyChange] at ha
  | _ => exact h

theorem InFlight.landing (h : InFlight m P) (ha : m.apply.applies anyChange = false)
    (hp : m.poolSwitch = true → m.pool.applied = true) : m.profile = P.target.profile := by
  by_cases hs : m.poolSwitch = true
  · exact (h.applied hs (hp hs)).done ha
  · have := h.plain (by simpa using hs)
    rw [this.1,this.2]

theorem InFlight.untouched (h : InFlight m P)
    (hp : (m.poolSwitch && m.pool.applied) = false) : m.profile = P.before.profile := by
  by_cases hs : m.poolSwitch = true
  · exact (h.asked hs (by simpa [hs] using hp)).1
  · exact (h.plain (by simpa using hs)).1

theorem Books.close (h : Books p₀ m) (hf : InFlight m P) (hm : m.mutating = true)
    {x : Ending} (hx : x.mutation = m.current) (hw : x.Whole P)
    (ho : x.outcome = .refused → x.cause = some x.mutation)
    (hp : m'.posted = m.posted) (hc : m'.callers = m.callers) (hn : m'.mutating = false)
    (he : m'.endings = m.endings ++ [x])
    (hep : m'.epoch = x.epoch) (hsw : m'.switches = x.switches)
    (hr : AtRest p₀ m') : Books p₀ m' := by
  have hpos := hf.posted_pos
  have hlen : m.posted.length = m.current+1 := by
    simp only [current]
    omega
  have hcount : m'.epoch = m'.endings.countP (fun e => e.outcome.isLanded) ∧
      m'.switches = m'.endings.countP (fun e => e.outcome.isLanded) := by
    rw [hep,hsw,he,List.countP_append,← h.epoch]
    have hes : m.epoch = m.switches := h.epoch.trans h.switches.symm
    unfold Ending.Whole at hw
    split at hw
    · rename_i hl
      obtain ⟨-,h₁,h₂⟩ := hw
      rw [h₁,h₂,hf.epoch,hf.switches]
      simp [hl,hes]
    · rename_i hl
      obtain ⟨-,h₁,h₂⟩ := hw
      rw [h₁,h₂,hf.epoch,hf.switches]
      simp [hl,hes]
  refine ⟨?_,?_,?_,hcount.1,hcount.2,by rw [hc,hp]; exact h.callers,?_,fun _ => hr⟩
  · have hone := h.once
    rw [hm,hlen] at hone
    rw [he,hp,hn,List.map_append,hone,hlen]
    simp [List.range_succ,hx]
  · intro y hy
    rw [he] at hy
    rcases List.mem_append.mp hy with hy | hy
    · rw [hp]
      exact h.whole y hy
    · cases List.mem_singleton.mp hy
      exact ⟨P,by rw [hp,hx]; exact hf.current,hw⟩
  · intro y hy
    rw [he] at hy
    rcases List.mem_append.mp hy with hy | hy
    · exact h.own y hy
    · cases List.mem_singleton.mp hy
      exact ho
  · intro hmut
    rw [hn] at hmut
    cases hmut

theorem Books.same (h : Books p₀ m) (hp : m'.posted = m.posted) (he : m'.endings = m.endings)
    (hm : m'.mutating = m.mutating) (hep : m'.epoch = m.epoch) (hsw : m'.switches = m.switches)
    (hc : m'.callers = m.callers)
    (hf : m.mutating = true → ∀ P, InFlight m P → InFlight m' P)
    (hr : m.mutating = false → AtRest p₀ m → AtRest p₀ m') : Books p₀ m' := by
  refine ⟨by rw [he,hp,hm,h.once],by rw [he,hp]; exact h.whole,by rw [he]; exact h.own,
    by rw [hep,he,h.epoch],by rw [hsw,he,h.switches],by rw [hc,hp]; exact h.callers,?_,?_⟩
  · intro hmut
    obtain ⟨P,hP⟩ := h.inFlight (hm ▸ hmut)
    exact ⟨P,hf (hm ▸ hmut) P hP⟩
  · exact fun hmut => hr (hm ▸ hmut) (h.atRest (hm ▸ hmut))

theorem last_append {α : Type} (l : List α) (a : α) : (l ++ [a]).getLast? = some a := by
  simp

theorem Books.commit (h : Books p₀ m) (hf : InFlight m P) (hm : m.mutating = true)
    (hl : m.profile = P.target.profile) (m₁ : Machine) (hp : m₁.posted = m.posted)
    (hc : m₁.callers = m.callers) (he : m₁.endings = m.endings) (hep : m₁.epoch = m.epoch)
    (hsw : m₁.switches = m.switches) (hpr : m₁.profile = m.profile)
    (hpe : m₁.pending = m.pending) (cause : Option Nat) (answered : Bool) :
    Books p₀ (m₁.commit cause answered) := by
  have ht : (⟨m₁.profile,m₁.pending⟩ : Triple) = P.target := by
    rw [hpr,hl,hpe,← hf.target]
  have hw : Ending.Whole ⟨m₁.current,cause,.landed answered,[],⟨m₁.profile,m₁.pending⟩,
      m₁.epoch+1,m₁.switches+1,m₁.threads,m₁.parkGen⟩ P := by
    simp only [Ending.Whole,Outcome.isLanded,if_true]
    exact ⟨ht,by rw [hep,hf.epoch],by rw [hsw,hf.switches]⟩
  have hcur : m₁.current = m.current := by simp only [current,hp]
  have hend : (m₁.commit cause answered).endings = m.endings ++ [⟨m₁.current,cause,
      .landed answered,[],⟨m₁.profile,m₁.pending⟩,m₁.epoch+1,m₁.switches+1,m₁.threads,
      m₁.parkGen⟩] := by
    rw [← he]
    rfl
  refine h.close hf hm hcur hw (fun ho => by cases ho) hp hc rfl hend rfl rfl ?_
  refine ⟨?_,rfl,?_⟩
  · rw [hend,last_append]
    rfl
  · intro Q want hQ hk
    have hPQ : P = Q := by
      have hlast : m.posted.getLast? = some Q := hp ▸ hQ
      rw [hf.last] at hlast
      exact Option.some.inj hlast
    have hkind := hf.kind
    rw [hPQ,hk] at hkind
    split at hkind
    · cases hkind
    · cases hkind
      exact .inl hpe

theorem Books.rollback (h : Books p₀ m) (hf : InFlight m P) (hm : m.mutating = true)
    (hl : m.profile = P.before.profile) (m₁ : Machine) (hp : m₁.posted = m.posted)
    (hc : m₁.callers = m.callers) (he : m₁.endings = m.endings) (hep : m₁.epoch = m.epoch)
    (hsw : m₁.switches = m.switches) (hpr : m₁.profile = m.profile)
    (hpv : m₁.previous = m.previous) (hmu : m₁.mutating = true) {cause : Option Nat}
    {o : Outcome} (hland : o.isLanded = false) (hown : o = .refused → cause = some m.current)
    (why : CStr) : Books p₀ (m₁.rollbackLocked cause o why) := by
  have ht : (⟨m₁.profile,m₁.previous⟩ : Triple) = P.before := by
    rw [hpr,hl,hpv,← hf.before]
  have hw : Ending.Whole ⟨m₁.current,cause,o,why,⟨m₁.profile,m₁.previous⟩,m₁.epoch,
      m₁.switches,m₁.threads,m₁.parkGen⟩ P := by
    simp only [Ending.Whole,hland,Bool.false_eq_true,if_false]
    exact ⟨ht,by rw [hep,hf.epoch],by rw [hsw,hf.switches]⟩
  have hcur : m₁.current = m.current := by simp only [current,hp]
  have hend : (m₁.rollbackLocked cause o why).endings = m.endings ++ [⟨m₁.current,cause,o,why,
      ⟨m₁.profile,m₁.previous⟩,m₁.epoch,m₁.switches,m₁.threads,m₁.parkGen⟩] := by
    simp only [rollbackLocked,hmu,if_true]
    rw [← he]
    rfl
  refine h.close hf hm hcur hw ?_ hp hc rfl hend rfl rfl ?_
  · intro ho
    rw [hcur]
    exact hown ho
  · refine ⟨?_,rfl,fun _ _ _ _ => .inr rfl⟩
    rw [hend,last_append]
    rfl

theorem Books.open (h : Books p₀ m) (hm : m.mutating = false) (hp : m'.posted = m.posted ++ [P])
    (he : m'.endings = m.endings) (hmu : m'.mutating = true) (hep : m'.epoch = m.epoch)
    (hsw : m'.switches = m.switches) (hc : m'.callers = m.callers) (hf : InFlight m' P) :
    Books p₀ m' := by
  have hget : ∀ (k : Nat) (Q : Mutation), m.posted[k]? = some Q → m'.posted[k]? = some Q := by
    intro k Q hk
    obtain ⟨hlt,-⟩ := List.getElem?_eq_some_iff.mp hk
    rw [hp,List.getElem?_append_left hlt,hk]
  refine ⟨?_,?_,by rw [he]; exact h.own,by rw [hep,he,h.epoch],by rw [hsw,he,h.switches],?_,
    fun _ => ⟨P,hf⟩,?_⟩
  · have hone := h.once
    rw [hm] at hone
    simpa [he,hp,hmu] using hone
  · intro x hx
    obtain ⟨Q,hQ,hw⟩ := h.whole x (he ▸ hx)
    exact ⟨Q,hget _ _ hQ,hw⟩
  · intro c hcm own ho
    obtain ⟨Q,hQ,hk⟩ := Option.map_eq_some_iff.mp (h.callers c (hc ▸ hcm) own ho)
    rw [hget _ _ hQ]
    exact congrArg some hk
  · intro hf
    rw [hmu] at hf
    cases hf

theorem Books.postRun (h : Books p₀ m) (hs : Sound m) (hm : m.mutating = false)
    {want : ControlState} (hw : m.state ≠ want) : Books p₀ (m.postRunLocked opt want) := by
  have hp := hs.phased.not_pool hm
  refine h.open hm rfl rfl rfl rfl rfl rfl ?_
  refine ⟨last_append _ _,rfl,rfl,rfl,rfl,?_,fun _ => hw.symm,fun _ => ⟨rfl,rfl⟩,?_,?_⟩
  · show Kind.run want = if m.poolSwitch then .pool else .run want
    rw [hp]
    rfl
  · intro hq
    exact absurd (hp.symm.trans hq) (by decide)
  · intro hq
    exact absurd (hp.symm.trans hq) (by decide)

theorem Books.postPool (h : Books p₀ m) (hm : m.mutating = false) (url user pass algo : CStr)
    (restore : Bool) (want : Option ControlState) :
    Books p₀ (m.postPoolLocked opt url user pass algo restore want) := by
  refine h.open hm rfl rfl rfl rfl rfl rfl ?_
  refine ⟨last_append _ _,rfl,rfl,rfl,rfl,rfl,?_,?_,fun _ _ => ⟨rfl,rfl⟩,?_⟩
  · intro hq
    cases hq
  · intro hq
    cases hq
  · intro _ ha
    cases ha

def timesOutOwn (m : Machine) : Event → Bool
  | .callerWakes c =>
    match m.callers[c]? with
    | some ⟨.run want,some own,_,none,_⟩ =>
      m.now < m.deadline || (m.settleLocked none).2.state = want || own == m.current
    | _ => true
  | _ => true

/-- No change is given up while it is being applied, nor by another's waiter. -/
def InOrder (opt : Options) (m : Machine) (e : Event) : Prop :=
  InTime anyChange opt m e ∧ timesOutOwn m e = true

instance (opt : Options) (m : Machine) (e : Event) : Decidable (InOrder opt m e) :=
  inferInstanceAs (Decidable (_ ∧ _))

def Orderly (m : Machine) (mv : Move) : Prop :=
  Timely anyChange m mv ∧
    match mv with
    | .timesOut want own =>
      own = m.current ∧ m.posted[own]?.map Mutation.kind = some (.run want)
    | .records cs =>
      ∀ c ∈ cs, ∀ own, c.mutation = some own → m.posted[own]?.map Mutation.kind = some c.kind
    | _ => True

theorem expire_posted (cause : Option Nat) : (m.expireLocked opt cause).posted = m.posted := by
  rcases expire_cases opt m cause with h | ⟨_,h⟩ | ⟨_,h⟩ <;> rw [h] <;> rfl

theorem judge_posted (kind : Kind) (own : Nat) :
    (m.judge opt kind own).1.posted = m.posted := by
  cases kind with
  | run want =>
    simp only [judge,judgeRun]
    split
    · rfl
    · split <;> rfl
  | pool =>
    simp only [judge,judgePool]
    split
    · split <;> rfl
    · split
      · exact expire_posted _
      · rfl

theorem waitPass_posted (opt : Options) (m : Machine) (kind : Kind) (own answerBy : Nat) :
    (m.waitPass opt kind own answerBy).1.posted = m.posted := by
  unfold waitPass
  split
  · exact judge_posted kind own
  · simp only
    split
    · exact settle_posted m none
    · rw [judge_posted,settle_posted]

theorem Owner.kind {kind : Kind} {k : Nat} (ho : Owner m e kind k) (h : Books p₀ m) :
    m.posted[k]?.map Mutation.kind = some kind := by
  obtain ⟨c,b,x,-,hc⟩ := ho
  exact h.callers _ (List.mem_of_getElem? hc) k rfl

theorem Recorded.kind {c : Caller} (hr : Recorded opt m e m₁ c) (h : Books p₀ m) {own : Nat}
    (ho : c.mutation = some own) : m₁.posted[own]?.map Mutation.kind = some c.kind := by
  obtain ⟨m₀,k,-,hk,hw,-,hcase⟩ := hr
  have hpost : m₁.posted = m₀.posted := by
    have := waitPass_posted opt m₀ c.kind k c.answerBy
    rwa [hw] at this
  have hko : k = own := Option.some.inj (hk.symm.trans ho)
  subst hko
  rw [hpost]
  rcases hcase with ⟨rfl,hown⟩ | ⟨-,hcur,hlast⟩
  · exact hown.kind h
  · obtain ⟨Q,hQ,hkind⟩ := Option.map_eq_some_iff.mp hlast
    rw [hcur,current,last_get hQ]
    exact congrArg some hkind

theorem Within.orderly (hw : Within opt m e m₁ mv) (h : Books p₀ m) (h₁ : Books p₀ m₁)
    (ht : InOrder opt m e) (hf : fine opt m₁ mv = some m') : Orderly m₁ mv := by
  refine ⟨hw.timely ht.1,?_⟩
  cases mv with
  | timesOut want own =>
    obtain ⟨hj,ho,hm⟩ := hw
    rw [show m₁.current = m.current by simp only [current,hj.posted],hj.posted]
    refine ⟨?_,ho.kind h⟩
    obtain ⟨c,b,x,rfl,hc⟩ := ho
    have hown := ht.2
    simp only [fine,Option.ite_none_right_eq_some] at hf
    have hlate : ¬ m.now < m.deadline := by
      have := hj.late
      omega
    simp only [timesOutOwn,hc,← hm,hlate,hf.1.2,decide_false,Bool.false_or,beq_iff_eq] at hown
    exact hown
  | records cs =>
    intro c hc own ho
    rcases hw c hc with hin | hnone | hr
    · exact h₁.callers c hin own ho
    · rw [hnone] at ho
      cases ho
    · exact hr.kind h ho
  | _ => trivial

theorem Sound.settles_applied (h : Sound m) (hset : m.settles = true)
    (hp : m.poolSwitch = true) : m.pool.applied = true := by
  simp only [settles,hp,if_true,Bool.and_eq_true] at hset
  exact h.phased.taken hp hset.2.1

theorem Books.land (h : Books p₀ m) (hs : Sound m) (hu : Underway anyChange m)
    (hset : m.settles = true) : Books p₀ m.land := by
  have hst : m.state = .switching := by
    simp only [settles,Bool.and_eq_true,decide_eq_true_eq] at hset
    exact hset.1
  have hm : m.mutating = true := hs.phased.busy.mpr hst
  obtain ⟨P,hf⟩ := h.inFlight hm
  have hl : m.profile = P.target.profile := hf.landing (hu.settles hset) (hs.settles_applied hset)
  unfold Machine.land
  split
  · exact h.commit hf hm hl m.dropPool rfl rfl rfl rfl rfl rfl rfl _ _
  · exact h.commit hf hm hl m rfl rfl rfl rfl rfl rfl rfl _ _

theorem Books.timeOut (h : Books p₀ m) {want : ControlState}
    (hw : m.state ≠ want) (hk : m.posted[m.current]?.map Mutation.kind = some (.run want))
    (why : CStr) : Books p₀ (m.rollbackLocked (some m.current) .rolledBack why) := by
  obtain ⟨Q,hQ,hkind⟩ := Option.map_eq_some_iff.mp hk
  by_cases hm : m.mutating = true
  · obtain ⟨P,hf⟩ := h.inFlight hm
    have hp : m.poolSwitch = false := by
      have hPQ : P = Q := Option.some.inj (hf.current.symm.trans hQ)
      have hpk := hf.kind
      rw [hPQ,hkind] at hpk
      cases hq : m.poolSwitch with
      | false => rfl
      | true => simp [hq] at hpk
    exact h.rollback hf hm (hf.untouched (by simp [hp])) m rfl rfl rfl rfl rfl rfl rfl hm rfl
      (fun ho => by cases ho) why
  · simp only [Bool.not_eq_true] at hm
    have hr := h.atRest hm
    have hlast : m.posted.getLast? = some Q := by rw [List.getLast?_eq_getElem?]; exact hQ
    have hprev : m.state = m.previous := (hr.run Q want hlast hkind).resolve_left hw
    have hend : (m.rollbackLocked (some m.current) .rolledBack why).endings = m.endings := by
      simp [rollbackLocked,setTerms,setStateLocked,dropPool,hm]
    refine h.same rfl hend hm.symm rfl rfl rfl (fun hmu => ?_) (fun _ _ => ?_)
    · rw [hm] at hmu
      cases hmu
    · refine ⟨?_,rfl,fun _ _ _ _ => .inr rfl⟩
      rw [hend,← hr.triple]
      exact congrArg (Triple.mk m.profile) hprev.symm

theorem Books.take (h : Books p₀ m) (hs : Sound m) (hq : m.pool.pending = true) :
    Books p₀ m.takePool := by
  obtain ⟨hp,ha,-⟩ := hs.phased.handed hq
  refine h.same rfl rfl rfl rfl rfl rfl (fun _ P hf => ?_) (fun _ hr => ?_)
  · obtain ⟨h₁,h₂⟩ := hf.asked hp ha
    refine ⟨hf.last,hf.epoch,hf.switches,hf.before,hf.target,hf.kind,hf.fresh,hf.plain,?_,?_⟩
    · intro _ hn
      cases hn
    · exact fun _ _ => ⟨rfl,h₁,h₂⟩
  · exact ⟨hr.triple,hr.state,hr.run⟩

theorem Books.advance (h : Books p₀ m) (hs : Sound m) (hu : Underway anyChange m)
    (ha : m.apply.applies anyChange = true) {a : Apply} {profile : Profile}
    (hmid : ∀ P k, Midway m.apply m.profile P k → Midway a profile P k) :
    Books p₀ { m with profile := profile, apply := a } := by
  obtain ⟨hp,hap,-⟩ := hu ha
  have hm := hs.phased.mutating hp
  refine h.same rfl rfl rfl rfl rfl rfl (fun _ P hf => ?_) (fun hn _ => ?_)
  · refine ⟨hf.last,hf.epoch,hf.switches,hf.before,hf.target,hf.kind,hf.fresh,?_,?_,?_⟩
    · intro hn
      exact absurd (hp.symm.trans hn) (by decide)
    · intro _ hn
      exact absurd (hap.symm.trans hn) (by decide)
    · exact fun _ _ => hmid P m.current (hf.applied hp hap)
  · exact absurd (hm.symm.trans hn) (by decide)

theorem Books.refuse (h : Books p₀ m) (hs : Sound m) (hu : Underway anyChange m)
    {p : PoolRequest} {hook : Bool} {k : Nat} (ha : m.apply = .taken p hook k) (why : CStr) :
    Books p₀ (m.refusePool hook k why) := by
  obtain ⟨hp,hap,-⟩ := hu (by rw [ha]; rfl)
  have hm := hs.phased.mutating hp
  obtain ⟨P,hf⟩ := h.inFlight hm
  have hmid := hf.applied hp hap
  rw [ha] at hmid
  obtain ⟨rfl,hprof,-⟩ := hmid
  exact h.rollback hf hm hprof m.markRefused rfl rfl rfl rfl rfl rfl rfl hm rfl
    (fun _ => rfl) _

theorem Books.leave (h : Books p₀ m) {a : Apply}
    (hmid : ∀ P k, Midway m.apply m.profile P k → Midway a m.profile P k) :
    Books p₀ { m with apply := a } := by
  refine h.same rfl rfl rfl rfl rfl rfl (fun _ P hf => ?_) (fun _ hr => ?_)
  · exact ⟨hf.last,hf.epoch,hf.switches,hf.before,hf.target,hf.kind,hf.fresh,hf.plain,hf.asked,
      fun hp hap => hmid P m.current (hf.applied hp hap)⟩
  · exact ⟨hr.triple,hr.state,hr.run⟩

theorem Books.frame (h : Books p₀ m) (hp : m'.posted = m.posted) (he : m'.endings = m.endings)
    (hm : m'.mutating = m.mutating) (hep : m'.epoch = m.epoch) (hsw : m'.switches = m.switches)
    (hc : m'.callers = m.callers) (hst : m'.state = m.state) (hpe : m'.pending = m.pending)
    (hpv : m'.previous = m.previous) (hps : m'.poolSwitch = m.poolSwitch)
    (hpr : m'.profile = m.profile) (ha : m'.apply = m.apply)
    (hap : m'.pool.applied = m.pool.applied)
    (haf : ∀ q : Profile, q.after m'.pool = q.after m.pool) : Books p₀ m' := by
  have hcur : m'.current = m.current := by simp only [current,hp]
  refine h.same hp he hm hep hsw hc (fun _ P hf => ?_) (fun _ hr => ?_)
  · obtain ⟨h₁,h₂,h₃,h₄,h₅,h₆,h₇,h₈,h₉,h₁₀⟩ := hf
    refine ⟨hp ▸ h₁,hep ▸ h₂,hsw ▸ h₃,hpv ▸ h₄,hpe ▸ h₅,?_,?_,?_,?_,?_⟩
    · rw [hps,hpe]
      exact h₆
    · rw [hps,hpe,hpv]
      exact h₇
    · rw [hps,hpr]
      exact h₈
    · rw [hps,hap,hpr,haf]
      exact h₉
    · rw [hps,hap,ha,hpr,hcur]
      exact h₁₀
  · refine ⟨?_,?_,?_⟩
    · rw [he,← hr.triple,triple,triple,hpr,hst]
    · rw [hst,hpe,hr.state]
    · rw [hp,hst,hpv]
      exact hr.run

theorem Books.fine (h : Books p₀ m) (hs : Sound m) (hu : Underway anyChange m)
    (hk : Orderly m mv) (hf : fine opt m mv = some m') : Books p₀ m' := by
  cases mv with
  | tick | notes | explains =>
    cases hf
    exact h.frame rfl rfl rfl rfl rfl rfl rfl rfl rfl rfl rfl rfl rfl (fun _ => rfl)
  | records cs =>
    cases hf
    exact ⟨h.once,h.whole,h.own,h.epoch,h.switches,hk.2,
      fun hm => (h.inFlight hm).imp fun P hP => { hP with },
      fun hm => { h.atRest hm with }⟩
  | sees | reads | enters | leaves | turnsBack | handsOver | connects =>
    simp only [Control.fine,Option.ite_none_right_eq_some,Option.some.injEq] at hf
    obtain ⟨-,rfl⟩ := hf
    exact h.frame rfl rfl rfl rfl rfl rfl rfl rfl rfl rfl rfl rfl rfl (fun _ => rfl)
  | lands =>
    simp only [Control.fine,Option.ite_none_right_eq_some,Option.some.injEq] at hf
    obtain ⟨hset,rfl⟩ := hf
    exact h.land hs hu hset
  | landsUnanswered cause =>
    simp only [Control.fine,Option.ite_none_right_eq_some,Option.some.injEq] at hf
    obtain ⟨⟨hst,-,hp,hap⟩,rfl⟩ := hf
    have hm : m.mutating = true := hs.phased.busy.mpr hst
    obtain ⟨P,hP⟩ := h.inFlight hm
    exact (h.commit hP hm (hP.landing hk.1.2 (fun _ => hap)) (m.answerPool false).dropPool rfl rfl
      rfl rfl rfl rfl rfl cause false).frame rfl rfl rfl rfl rfl rfl rfl rfl rfl rfl rfl rfl rfl
      (fun _ => rfl)
  | expires cause =>
    simp only [Control.fine,Option.ite_none_right_eq_some,Option.some.injEq] at hf
    obtain ⟨⟨hst,-,hp⟩,rfl⟩ := hf
    have hm : m.mutating = true := hs.phased.busy.mpr hst
    obtain ⟨P,hP⟩ := h.inFlight hm
    exact h.rollback hP hm (hP.untouched hp) m rfl rfl rfl rfl rfl rfl rfl hm rfl
      (fun ho => by cases ho) _
  | timesOut want own =>
    simp only [Control.fine,Option.ite_none_right_eq_some,Option.some.injEq] at hf
    obtain ⟨⟨-,hw⟩,rfl⟩ := hf
    obtain ⟨-,rfl,hkind⟩ := hk
    exact h.timeOut hw hkind _
  | postsPool url user pass algo restore want =>
    simp only [Control.fine,Option.ite_none_right_eq_some,Option.some.injEq] at hf
    obtain ⟨hm,rfl⟩ := hf
    exact h.postPool hm url user pass algo restore want
  | postsRun want =>
    simp only [Control.fine,Option.ite_none_right_eq_some,Option.some.injEq] at hf
    obtain ⟨⟨hm,hw,-⟩,rfl⟩ := hf
    exact h.postRun hs hm hw
  | takes =>
    simp only [Control.fine,Option.ite_none_right_eq_some,Option.some.injEq] at hf
    obtain ⟨⟨-,hq⟩,rfl⟩ := hf
    exact h.take hs hq
  | refuses why =>
    simp only [Control.fine] at hf
    split at hf
    · rename_i p hook k ha
      simp only [Option.ite_none_left_eq_some,Option.some.injEq] at hf
      obtain ⟨-,rfl⟩ := hf
      exact h.refuse hs hu ha why
    · cases hf
  | moves =>
    simp only [Control.fine] at hf
    split at hf
    · rename_i p hook k ha
      cases hf
      refine h.advance hs hu (by rw [ha]; rfl) (fun P j hmid => ?_)
      rw [ha] at hmid
      exact ⟨hmid.1,by rw [hmid.2.1],hmid.2.2⟩
    · cases hf
  | writes =>
    simp only [Control.fine] at hf
    split at hf
    · rename_i p k ha
      cases hf
      refine h.advance hs hu (by rw [ha]; rfl) (fun P j hmid => ?_)
      rw [ha] at hmid
      obtain ⟨-,h₁,h₂⟩ := hmid
      show m.profile.withPool p = P.target.profile
      rw [h₁,h₂]
      rfl
    · cases hf
  | readsHold =>
    simp only [Control.fine] at hf
    split at hf
    · rename_i k ha
      cases hf
      refine h.leave (fun P j hmid => ?_)
      rw [ha] at hmid
      split <;> exact hmid
    · cases hf
  | returns =>
    simp only [Control.fine] at hf
    split at hf
    · rename_i k ha
      cases hf
      refine h.leave (fun P j hmid => ?_)
      rw [ha] at hmid
      exact hmid
    · cases hf
  | releases => exact hk.1.1.elim

structure Ordered (p₀ : Profile) (m : Machine) : Prop where
  tracked : Tracked anyChange m
  books : Books p₀ m

theorem Ordered.step (h : Ordered p₀ m) (ht : InOrder opt m e) (hs : step opt m e = some m') :
    Ordered p₀ m' :=
  (step_moves hs).invariant h fun _ _ _ hm hw hf =>
    have hk := hw.orderly h.books hm.books ht hf
    ⟨⟨hm.tracked.sound.fine hk.1.1 hf,hm.tracked.underway.fine hm.tracked.sound hk.1 hf⟩,
      hm.books.fine hm.tracked.sound hm.tracked.underway hk hf⟩

theorem ordered_start (n : Nat) (p : Profile) (hook : Bool) : Ordered p (start n p hook) := by
  refine ⟨⟨sound_start n p hook,underway_of_quiet rfl⟩,?_⟩
  refine ⟨rfl,by simp [start],by simp [start],rfl,rfl,by simp [start],?_,fun _ => ⟨rfl,rfl,?_⟩⟩
  · intro hm
    cases hm
  · intro P want hP
    cases hP

theorem ordered_reach {n : Nat} {p : Profile} {hook : Bool}
    (h : Reach (Control.step opt) (InOrder opt) (start n p hook) m) : Ordered p m :=
  h.invariant (ordered_start n p hook) (fun _ _ _ hm ht hs => hm.step ht hs)

theorem expire_late (opt : Options) (cause : Option Nat) (hs : m.state = .switching) (hd : m.deadline ≤ m.now) :
    (m.expireLocked opt cause).mutating = false := by
  have hd' : ¬ m.now < m.deadline := by omega
  by_cases hp : (m.poolSwitch && m.pool.applied) = true
  · have hpa := hp
    simp only [Bool.and_eq_true] at hpa
    simp only [expireLocked,hs,hd',hp,settle_answered m false cause hs hpa.1 hpa.2]
    rfl
  · simp only [expireLocked,hs,hd',hp]
    rfl

/-- The first look at the deadline once it has passed ends what is in flight. -/
theorem catchUp_late (hb : m.mutating = true ↔ m.state = .switching) (hd : m.deadline ≤ m.now) :
    (m.catchUp opt).mutating = false := by
  unfold catchUp
  by_cases hs : (m.settleLocked none).2.state = .switching
  · exact expire_late opt none hs (by rw [settle_deadline,settle_now]; exact hd)
  · rw [show (m.settleLocked none).2.expireLocked opt none = (m.settleLocked none).2 by
      simp [expireLocked,hs]]
    rcases settle_none m with h | ⟨ha,h⟩ | ⟨-,h⟩
    · rw [h] at hs ⊢
      exact Bool.eq_false_iff.mpr (fun hm => hs (hb.mp hm))
    · rw [h] at hs
      simp only [asks,Bool.and_eq_true,decide_eq_true_eq] at ha
      exact absurd ha.1.1.1.1 hs
    · rw [h]
      unfold land
      split <;> rfl

/-- What the history shows: changes end once, whole and on their own account, and
nothing else moves the triple or spends an epoch. -/
structure AllOrNothing (opt : Options) (p₀ : Profile) (m : Machine) : Prop where
  once : m.endings.map Ending.mutation = List.range (m.posted.length-m.mutating.toNat)
  ends : ∀ ns, m.deadline ≤ m.now+ns →
    (({ m with now := m.now+ns } : Machine).catchUp opt).mutating = false
  whole : ∀ e ∈ m.endings, ∃ P, m.posted[e.mutation]? = some P ∧ e.Whole P
  own : ∀ e ∈ m.endings, e.outcome = .refused → e.cause = some e.mutation
  epoch : m.epoch = m.endings.countP (fun e => e.outcome.isLanded)
  switches : m.switches = m.endings.countP (fun e => e.outcome.isLanded)
  noChange : ∀ want waitMs, opt.apiControl = true → want ≠ .switching →
    (m.catchUp opt).state = want →
      (m.controlRequest opt want waitMs).posted = m.posted ∧
      (m.controlRequest opt want waitMs).epoch = (m.catchUp opt).epoch
  busy : m.mutating = true ↔ m.state = .switching
  settled : m.state ≠ .switching →
    m.triple = (m.endings.getLast?.map Ending.triple).getD ⟨p₀,.running⟩

theorem noChange_posted {want : ControlState} (waitMs : Nat) (hc : opt.apiControl = true)
    (hw : want ≠ .switching) (hs : (m.catchUp opt).state = want) :
    (m.controlRequest opt want waitMs).posted = m.posted ∧
      (m.controlRequest opt want waitMs).epoch = (m.catchUp opt).epoch := by
  have hp : (m.catchUp opt).posted = m.posted := by
    rw [catchUp,expire_posted,settle_posted]
  unfold controlRequest
  simp only [hc,hw,hs,Bool.not_true,Bool.false_eq_true,if_false,if_true]
  split
  · exact ⟨hp,rfl⟩
  · exact ⟨hp,rfl⟩

/-- In every run in order, changes are all or nothing. -/
theorem changes_all_or_nothing (opt : Options) (n : Nat) (p : Profile) (hook : Bool)
    (m : Machine) (h : Reach (step opt) (InOrder opt) (start n p hook) m) :
    AllOrNothing opt p m := by
  obtain ⟨⟨hs,-⟩,hb⟩ := ordered_reach h
  have hbusy := hs.phased.busy
  refine ⟨hb.once,fun ns hd => ?_,hb.whole,hb.own,hb.epoch,hb.switches,?_,hbusy,fun hq => ?_⟩
  · exact catchUp_late hbusy hd
  · exact fun want waitMs hc hw hw' => noChange_posted waitMs hc hw hw'
  · exact (hb.atRest (Bool.eq_false_iff.mpr (fun hm => hq (hbusy.mp hm)))).triple

def switchLanded : List Event :=
  switchTaken ++ [.moves,.writes,.readsHold,.connected,.callerWakes 0]

theorem switch_all_or_nothing : ∃ m,
    Reach (step stock) (InOrder stock) (start 1 kawpow true) m ∧
      m.profile.algo = ascii "sha256d" ∧ AllOrNothing stock kawpow m := by
  obtain ⟨m,hm,ha⟩ := reach_of_any (step stock) (InOrder stock) (start 1 kawpow true)
    switchLanded (fun m => m.profile.algo = ascii "sha256d") (by decide)
  exact ⟨m,hm,ha,changes_all_or_nothing stock 1 kawpow true m hm⟩

/-- A late poll lands a change whose hook is still running: it counts an epoch
for the algorithm and the pool that were in force before it. -/
theorem late_poll_lands_half : ¬ ∀ (opt : Options) (n : Nat) (p : Profile) (hook : Bool)
    (m : Machine), Reach (step opt) Stays (start n p hook) m → AllOrNothing opt p m := by
  intro h
  obtain ⟨m,hm,ha⟩ := reach_of_any (step stock) Stays (start 1 kawpow true) polledLate
    (fun m => ∃ e ∈ m.endings, e.outcome.isLanded = true ∧
      m.posted.all (fun P => decide (e.triple ≠ P.target))) (by decide)
  obtain ⟨e,he,hl,hne⟩ := ha
  obtain ⟨P,hP,hw⟩ := (h stock 1 kawpow true m hm).whole e he
  simp only [Ending.Whole,hl,if_true] at hw
  have := List.all_eq_true.mp hne P (List.mem_of_getElem? hP)
  exact of_decide_eq_true this hw.1

end VkMiner.Control
