import VkMiner.Control.Ledger
set_option autoImplicit false

/-! What the three requests answer, against what became of their own change. -/

namespace VkMiner.Control
open Machine Runs

variable {opt : Options} {m m' m₁ : Machine} {e : Event} {mv : Move} {p₀ : Profile}
  {P : Mutation} {x : Ending}

def Describes (opt : Options) (m : Machine) (own : Nat) (r : ControlResult) (why : CStr)
    (inFlightThen : Bool) : Prop :=
  match r with
  | .ok => ∃ x ∈ m.endings, x.mutation = own ∧ x.outcome = .landed true
  | .invalid => ∃ x ∈ m.endings, x.mutation = own ∧ x.outcome = .refused ∧ why = x.reason
  | .timeout => ∃ x ∈ m.endings, x.mutation = own ∧
      (x.outcome = .rolledBack ∧ why = x.reason ∨
        x.outcome = .landed false ∧ why = poolNotAnswered opt)
  | .accepted => inFlightThen = true
  | _ => False

def Verdict (opt : Options) (m : Machine) (P : Mutation) (x : Ending) : Prop :=
  match P.kind,x.outcome with
  | .pool,.landed true => m.pool.ok = true
  | .pool,.landed false =>
    m.pool.ok = false ∧ m.pool.refused = false ∧
      (m.errorOverwritten = false → m.lastError = poolNotAnswered opt)
  | .pool,.refused =>
    m.pool.ok = false ∧ m.pool.refused = true ∧
      (m.errorOverwritten = false → m.lastError = x.reason)
  | .pool,.rolledBack =>
    m.pool.ok = false ∧ m.pool.refused = false ∧
      (m.errorOverwritten = false → m.lastError = x.reason)
  | .run want,.landed true => m.state = want
  | .run want,.rolledBack =>
    m.state ≠ want ∧ x.reason = parkTimedOut opt ∧ m.deadline ≤ m.now
  | .run _,_ => False

structure Judged (opt : Options) (m : Machine) : Prop where
  asking : m.mutating = true → m.poolSwitch = true →
    m.pool.refused = false ∧ m.pool.ok = m.pool.done
  verdict : m.mutating = false → ∀ P, m.posted.getLast? = some P →
    ∃ x ∈ m.endings, x.mutation = m.current ∧ Verdict opt m P x
  causes : ∀ x ∈ m.endings, ∀ k, x.cause = some k → k = x.mutation
  answers : ∀ c ∈ m.callers, ∀ own r why, c.mutation = some own → c.answer = some (r,why) →
    Describes opt m own r why c.inFlightThen

theorem Describes.mono {own : Nat} {r : ControlResult} {why : CStr} {b : Bool}
    (h : Describes opt m own r why b) (hs : ∀ x ∈ m.endings, x ∈ m'.endings) :
    Describes opt m' own r why b := by
  cases r with
  | ok =>
    obtain ⟨x,hx,h⟩ := h
    exact ⟨x,hs x hx,h⟩
  | invalid =>
    obtain ⟨x,hx,h⟩ := h
    exact ⟨x,hs x hx,h⟩
  | timeout =>
    obtain ⟨x,hx,h⟩ := h
    exact ⟨x,hs x hx,h⟩
  | _ => exact h

theorem Verdict.timedOut (h : Verdict opt m P x) {want : ControlState}
    (hk : P.kind = .run want) (hw : m.state ≠ want) :
    x.outcome = .rolledBack ∧ x.reason = parkTimedOut opt ∧ m.deadline ≤ m.now := by
  unfold Verdict at h
  rw [hk] at h
  cases ho : x.outcome with
  | landed answered =>
    cases answered with
    | true =>
      rw [ho] at h
      exact absurd h hw
    | false =>
      rw [ho] at h
      exact h.elim
  | refused =>
    rw [ho] at h
    exact h.elim
  | rolledBack =>
    rw [ho] at h
    exact ⟨rfl,h.2⟩

theorem Judged.frame (h : Judged opt m) (hm : m'.mutating = m.mutating)
    (hs : m'.poolSwitch = m.poolSwitch) (hr : m'.pool.refused = m.pool.refused)
    (ho : m'.pool.ok = m.pool.ok) (hd : m'.pool.done = m.pool.done)
    (hp : m'.posted = m.posted) (he : m'.endings = m.endings) (hc : m'.callers = m.callers)
    (hst : m'.state = m.state) (hl : m'.lastError = m.lastError)
    (hov : m'.errorOverwritten = m.errorOverwritten) (hdl : m'.deadline = m.deadline)
    (hn : m.now ≤ m'.now) : Judged opt m' := by
  have hcur : m'.current = m.current := by simp only [current,hp]
  refine ⟨by rw [hm,hs,hr,ho,hd]; exact h.asking,?_,by rw [he]; exact h.causes,?_⟩
  · rw [hm,hp,he,hcur]
    intro hmut P hP
    obtain ⟨x,hx,hk,hv⟩ := h.verdict hmut P hP
    refine ⟨x,hx,hk,?_⟩
    unfold Verdict at hv ⊢
    rw [hr,ho,hst,hl,hov,hdl]
    split at hv <;> first | exact hv | exact ⟨hv.1,hv.2.1,Nat.le_trans hv.2.2 hn⟩
  · rw [hc]
    intro c hcm own r why hown hans
    exact (h.answers c hcm own r why hown hans).mono (fun x hx => he ▸ hx)

theorem Judged.close (h : Judged opt m) (hf : InFlight m P) (hn : m'.mutating = false)
    (hp : m'.posted = m.posted) (hc : m'.callers = m.callers)
    (he : m'.endings = m.endings ++ [x]) (hx : x.mutation = m.current)
    (hk : ∀ k, x.cause = some k → k = x.mutation) (hv : Verdict opt m' P x) :
    Judged opt m' := by
  refine ⟨fun hm => ?_,?_,?_,?_⟩
  · rw [hn] at hm
    cases hm
  · intro _ Q hQ
    rw [hp,hf.last] at hQ
    cases hQ
    refine ⟨x,by simp [he],?_,hv⟩
    simp only [hx,current,hp]
  · intro y hy
    rw [he] at hy
    rcases List.mem_append.mp hy with hy | hy
    · exact h.causes y hy
    · cases List.mem_singleton.mp hy
      exact hk
  · rw [hc]
    intro c hcm own r why hown hans
    refine (h.answers c hcm own r why hown hans).mono (fun y hy => ?_)
    rw [he]
    exact List.mem_append.mpr (.inl hy)

theorem Judged.open (h : Judged opt m) (hm : m'.mutating = true)
    (ha : m'.poolSwitch = true → m'.pool.refused = false ∧ m'.pool.ok = m'.pool.done)
    (he : m'.endings = m.endings) (hc : m'.callers = m.callers) : Judged opt m' := by
  refine ⟨fun _ => ha,fun hn => ?_,by rw [he]; exact h.causes,?_⟩
  · rw [hm] at hn
    cases hn
  · rw [hc]
    intro c hcm own r why hown hans
    exact (h.answers c hcm own r why hown hans).mono (fun x hx => he ▸ hx)

structure Told (opt : Options) (p₀ : Profile) (m : Machine) : Prop where
  ordered : Ordered p₀ m
  judged : Judged opt m

theorem Told.sound (h : Told opt p₀ m) : Sound m := h.ordered.tracked.sound

theorem Told.underway (h : Told opt p₀ m) : Underway anyChange m := h.ordered.tracked.underway

theorem Told.inFlight (h : Told opt p₀ m) (hs : m.state = .switching) :
    m.mutating = true ∧ ∃ P, InFlight m P := by
  have hm := h.sound.phased.busy.mpr hs
  exact ⟨hm,h.ordered.books.inFlight hm⟩

theorem rollback_endings (hm : m.mutating = true) (cause : Option Nat) (o : Outcome)
    (why : CStr) : (m.rollbackLocked cause o why).endings = m.endings ++
      [⟨m.current,cause,o,why,⟨m.profile,m.previous⟩,m.epoch,m.switches,m.threads,
        m.parkGen⟩] := by
  simp only [rollbackLocked,hm,if_true]
  rfl

theorem rollback_logged (hm : m.mutating = true) (cause : Option Nat) (o : Outcome)
    (why : CStr) : ∃ x ∈ (m.rollbackLocked cause o why).endings,
      x.mutation = m.current ∧ x.outcome = o ∧ x.reason = why := by
  rw [rollback_endings hm]
  exact ⟨_,List.mem_append.mpr (.inr (List.mem_singleton.mpr rfl)),rfl,rfl,rfl⟩

theorem rollback_quiet (hm : m.mutating = false) (cause : Option Nat) (o : Outcome)
    (why : CStr) : (m.rollbackLocked cause o why).endings = m.endings := by
  simp [rollbackLocked,setTerms,setStateLocked,dropPool,hm]

theorem Judged.land (h : Told opt p₀ m) (hset : m.settles = true) : Judged opt m.land := by
  have hst : m.state = .switching := by
    simp only [settles,Bool.and_eq_true,decide_eq_true_eq] at hset
    exact hset.1
  obtain ⟨hm,P,hf⟩ := h.inFlight hst
  have hkind := hf.kind
  unfold Machine.land
  split
  · rename_i hp
    have hok : m.pool.ok = true := by
      rw [(h.judged.asking hm hp).2]
      simp only [settles,hp,if_true,Bool.and_eq_true] at hset
      exact hset.2.1
    refine h.judged.close hf rfl rfl rfl rfl rfl (fun k hk => by cases hk) ?_
    simp only [hp,if_true] at hkind
    simp only [Verdict,hkind,hok]
    exact hok
  · rename_i hp
    refine h.judged.close hf rfl rfl rfl rfl rfl (fun k hk => by cases hk) ?_
    simp only [hp,if_false,Bool.false_eq_true] at hkind
    simp only [Verdict,hkind]
    rfl

theorem Judged.landUnanswered (h : Told opt p₀ m) (hst : m.state = .switching)
    (hp : m.poolSwitch = true) {cause : Option Nat} (hc : ∀ k, cause = some k → k = m.current) :
    Judged opt (m.landUnanswered opt cause) := by
  obtain ⟨hm,P,hf⟩ := h.inFlight hst
  have hkind := hf.kind
  refine h.judged.close hf rfl rfl rfl rfl rfl hc ?_
  simp only [hp,if_true] at hkind
  simp only [Verdict,hkind]
  exact ⟨rfl,(h.judged.asking hm hp).1,fun _ => rfl⟩

theorem Judged.expire (h : Told opt p₀ m) (hst : m.state = .switching)
    (hd : m.deadline ≤ m.now) (hp : (m.poolSwitch && m.pool.applied) = false)
    {cause : Option Nat} (hc : ∀ k, cause = some k → k = m.current) {why : CStr}
    (hw : m.poolSwitch = false → why = parkTimedOut opt) :
    Judged opt (m.rollbackLocked cause .rolledBack why) := by
  obtain ⟨hm,P,hf⟩ := h.inFlight hst
  have hkind := hf.kind
  refine h.judged.close hf rfl rfl rfl (rollback_endings hm _ _ _) rfl hc ?_
  by_cases hps : m.poolSwitch = true
  · have hdone : m.pool.done = false := by
      refine Bool.eq_false_iff.mpr (fun hdone => ?_)
      simp [hps,h.sound.phased.taken hps hdone] at hp
    obtain ⟨hr,hok⟩ := h.judged.asking hm hps
    simp only [hps,if_true] at hkind
    simp only [Verdict,hkind]
    exact ⟨hok.trans hdone,hr,fun _ => rfl⟩
  · simp only [Bool.not_eq_true] at hps
    simp only [hps,Bool.false_eq_true,if_false] at hkind
    simp only [Verdict,hkind]
    exact ⟨(hf.fresh hps).symm,hw hps,hd⟩

theorem Judged.timeOut (h : Told opt p₀ m) {want : ControlState} (hw : m.state ≠ want)
    (hd : m.deadline ≤ m.now)
    (hk : m.posted[m.current]?.map Mutation.kind = some (.run want)) :
    Judged opt (m.rollbackLocked (some m.current) .rolledBack (parkTimedOut opt)) := by
  obtain ⟨Q,hQ,hkind⟩ := Option.map_eq_some_iff.mp hk
  by_cases hm : m.mutating = true
  · have hst : m.state = .switching := h.sound.phased.busy.mp hm
    obtain ⟨-,P,hf⟩ := h.inFlight hst
    have hp : m.poolSwitch = false := by
      have hPQ : P = Q := Option.some.inj (hf.current.symm.trans hQ)
      have hpk := hf.kind
      rw [hPQ,hkind] at hpk
      cases hq : m.poolSwitch with
      | false => rfl
      | true => simp [hq] at hpk
    exact Judged.expire h hst hd (by simp [hp]) (fun k hk => (Option.some.inj hk).symm)
      (fun _ => rfl)
  · simp only [Bool.not_eq_true] at hm
    have hlast : m.posted.getLast? = some Q := by rw [List.getLast?_eq_getElem?]; exact hQ
    have hend := rollback_quiet hm (some m.current) .rolledBack (parkTimedOut opt)
    have hprev : m.state = m.previous :=
      ((h.ordered.books.atRest hm).run Q want hlast hkind).resolve_left hw
    refine ⟨(fun hmut => by cases hmut),?_,by rw [hend]; exact h.judged.causes,?_⟩
    · intro _ P hP
      obtain ⟨x,hx,hxk,hv⟩ := h.judged.verdict hm P hP
      refine ⟨x,by rw [hend]; exact hx,hxk,?_⟩
      have hPQ : P = Q := Option.some.inj (hP.symm.trans hlast)
      subst hPQ
      obtain ⟨ho,hr,-⟩ := hv.timedOut hkind hw
      simp only [Verdict,hkind,ho]
      exact ⟨fun he => hw (hprev.trans he),hr,hd⟩
    · intro c hcm own r why hown hans
      exact (h.judged.answers c hcm own r why hown hans).mono (fun x hx => by rw [hend]; exact hx)

theorem Judged.refuse (h : Told opt p₀ m) {p : PoolRequest} {hook : Bool} {k : Nat}
    (ha : m.apply = .taken p hook k) (why : CStr) : Judged opt (m.refusePool hook k why) := by
  obtain ⟨hp,hap,hdone⟩ := h.underway (by rw [ha]; rfl)
  obtain ⟨hm,P,hf⟩ := h.inFlight (h.sound.phased.poolBusy hp)
  have hmid := hf.applied hp hap
  rw [ha] at hmid
  have hkind := hf.kind
  simp only [hp,if_true] at hkind
  refine h.judged.close hf rfl rfl rfl (rollback_endings (m := m.markRefused) hm _ _ _) rfl ?_ ?_
  · intro j hj
    exact (Option.some.inj hj).symm.trans hmid.1
  · simp only [Verdict,hkind]
    exact ⟨(h.judged.asking hm hp).2.trans hdone,rfl,fun _ => rfl⟩

def Punctual (opt : Options) (m : Machine) (mv : Move) : Prop :=
  Orderly m mv ∧
    match mv with
    | .landsUnanswered cause | .expires cause => ∀ k, cause = some k → k = m.current
    | .explains _ => m.mutating = true
    | .records cs => ∀ c ∈ cs, c ∈ m.callers ∨ ∀ own r why, c.mutation = some own →
        c.answer = some (r,why) → Describes opt m own r why c.inFlightThen
    | _ => True

theorem Told.fine (h : Told opt p₀ m) (hk : Punctual opt m mv) (hf : fine opt m mv = some m') :
    Told opt p₀ m' := by
  have hs := h.sound
  have hu := h.underway
  have hj := h.judged
  refine ⟨⟨⟨hs.fine hk.1.1.1 hf,hu.fine hs hk.1.1 hf⟩,h.ordered.books.fine hs hu hk.1 hf⟩,?_⟩
  cases mv with
  | tick ns =>
    cases hf
    exact hj.frame rfl rfl rfl rfl rfl rfl rfl rfl rfl rfl rfl rfl (Nat.le_add_right _ _)
  | notes why =>
    cases hf
    refine ⟨hj.asking,?_,hj.causes,hj.answers⟩
    intro hm P hP
    obtain ⟨x,hx,hxk,hv⟩ := hj.verdict hm P hP
    refine ⟨x,hx,hxk,?_⟩
    unfold Verdict at hv ⊢
    split at hv <;>
      first | exact hv | exact ⟨hv.1,hv.2.1,fun hn => by cases hn⟩
  | explains why =>
    cases hf
    exact hj.open hk.2 (hj.asking hk.2) rfl rfl
  | records cs =>
    cases hf
    refine ⟨hj.asking,hj.verdict,hj.causes,?_⟩
    intro c hc own r why hown hans
    rcases hk.2 c hc with hin | hnew
    · exact hj.answers c hin own r why hown hans
    · exact hnew own r why hown hans
  | sees | reads | enters | leaves | turnsBack | handsOver | takes =>
    simp only [Control.fine,Option.ite_none_right_eq_some,Option.some.injEq] at hf
    obtain ⟨-,rfl⟩ := hf
    exact hj.frame rfl rfl rfl rfl rfl rfl rfl rfl rfl rfl rfl rfl (Nat.le_refl _)
  | lands =>
    simp only [Control.fine,Option.ite_none_right_eq_some,Option.some.injEq] at hf
    obtain ⟨hset,rfl⟩ := hf
    exact Judged.land h hset
  | landsUnanswered cause =>
    simp only [Control.fine,Option.ite_none_right_eq_some,Option.some.injEq] at hf
    obtain ⟨⟨hst,-,hp,-⟩,rfl⟩ := hf
    exact Judged.landUnanswered h hst hp hk.2
  | expires cause =>
    simp only [Control.fine,Option.ite_none_right_eq_some,Option.some.injEq] at hf
    obtain ⟨⟨hst,hd,hp⟩,rfl⟩ := hf
    exact Judged.expire h hst hd hp hk.2 (fun hn => by simp [expireText,hn])
  | timesOut want own =>
    simp only [Control.fine,Option.ite_none_right_eq_some,Option.some.injEq] at hf
    obtain ⟨⟨hd,hw⟩,rfl⟩ := hf
    obtain ⟨⟨-,rfl,hkind⟩,-⟩ := hk
    exact Judged.timeOut h hw hd hkind
  | postsPool url user pass algo restore want =>
    simp only [Control.fine,Option.ite_none_right_eq_some,Option.some.injEq] at hf
    obtain ⟨-,rfl⟩ := hf
    exact hj.open rfl (fun _ => ⟨rfl,rfl⟩) rfl rfl
  | postsRun want =>
    simp only [Control.fine,Option.ite_none_right_eq_some,Option.some.injEq] at hf
    obtain ⟨⟨hm,-⟩,rfl⟩ := hf
    refine hj.open rfl (fun hp => ?_) rfl rfl
    exact absurd (hm.symm.trans (hs.phased.mutating hp)) (by decide)
  | refuses why =>
    simp only [Control.fine] at hf
    split at hf
    · rename_i p hook k ha
      simp only [Option.ite_none_left_eq_some,Option.some.injEq] at hf
      obtain ⟨-,rfl⟩ := hf
      exact Judged.refuse h ha why
    · cases hf
  | moves | writes | readsHold | returns =>
    simp only [Control.fine] at hf
    split at hf
    · cases hf
      exact hj.frame rfl rfl rfl rfl rfl rfl rfl rfl rfl rfl rfl rfl (Nat.le_refl _)
    · cases hf
  | connects =>
    simp only [Control.fine,Option.ite_none_right_eq_some,Option.some.injEq] at hf
    obtain ⟨⟨-,hp,-⟩,rfl⟩ := hf
    have hm := hs.phased.mutating hp
    exact hj.open hm (fun _ => ⟨(hj.asking hm hp).1,rfl⟩) rfl rfl
  | releases => exact hk.1.1.1.elim

def Answered (opt : Options) (own : Nat) (r : Machine × Answer) : Prop :=
  ∀ a why, r.2 = some (a,why) →
    Describes opt r.1 own a why (r.1.mutating && r.1.current == own)

theorem judgeRun_answered (h : Told opt p₀ m) (hP : m.posted.getLast? = some P)
    {want : ControlState} (hk : P.kind = .run want) :
    Answered opt m.current (m.judgeRun opt want m.current) := by
  have hbusy := h.sound.phased.busy
  unfold judgeRun
  by_cases hs : m.state = .switching
  · obtain ⟨hm,Q,hf⟩ := h.inFlight hs
    have hne : m.state ≠ want := by
      have hPQ : P = Q := Option.some.inj (hP.symm.trans hf.last)
      have hkind := hf.kind
      rw [← hPQ,hk] at hkind
      split at hkind
      · cases hkind
      · cases hkind
        rw [hs]
        exact h.sound.phased.pending.symm
    rw [if_neg hne]
    split
    · intro a why ha
      cases ha
      obtain ⟨x,hx,hxk,ho,hr⟩ := rollback_logged hm (some m.current) .rolledBack
        (parkTimedOut opt)
      exact ⟨x,hx,hxk,.inl ⟨ho,hr.symm⟩⟩
    · intro a why ha
      cases ha
      show (m.mutating && m.current == m.current) = true
      simp [hm]
  · have hm : m.mutating = false := Bool.eq_false_iff.mpr (fun hm => hs (hbusy.mp hm))
    obtain ⟨x,hx,hxk,hv⟩ := h.judged.verdict hm P hP
    by_cases hw : m.state = want
    · rw [if_pos hw]
      intro a why ha
      cases ha
      refine ⟨x,hx,hxk,?_⟩
      unfold Verdict at hv
      rw [hk] at hv
      split at hv
      case h_5 ho => exact ho
      case h_6 => exact absurd hw (by simp_all)
      all_goals simp_all
    · obtain ⟨ho,hr,hd⟩ := hv.timedOut hk hw
      rw [if_neg hw,if_pos hd]
      intro a why ha
      cases ha
      exact ⟨x,by rw [rollback_quiet hm]; exact hx,hxk,.inl ⟨ho,hr.symm⟩⟩

theorem judgePool_answered (h : Told opt p₀ m) (hP : m.posted.getLast? = some P)
    (hk : P.kind = .pool) (herr : m.state ≠ .switching → m.errorOverwritten = false) :
    Answered opt m.current (m.judgePool opt m.current) := by
  have hbusy := h.sound.phased.busy
  unfold judgePool
  by_cases hs : m.state = .switching
  · obtain ⟨hm,-⟩ := h.inFlight hs
    rw [if_neg (by simp [hs])]
    split
    · rename_i hd
      rcases expire_cases opt m (some m.current) with he | ⟨hc,he⟩ | ⟨hc,he⟩
      · have hlate := expire_late opt (some m.current) hs hd
        rw [he,hm] at hlate
        cases hlate
      · intro a why ha
        simp only [he] at ha ⊢
        cases ha
        exact ⟨_,List.mem_append.mpr (.inr (List.mem_singleton.mpr rfl)),rfl,.inr ⟨rfl,rfl⟩⟩
      · intro a why ha
        simp only [he] at ha ⊢
        cases ha
        obtain ⟨x,hx,hxk,ho,hr⟩ := rollback_logged hm (some m.current) .rolledBack
          (m.expireText opt)
        exact ⟨x,hx,hxk,.inl ⟨ho,hr.symm⟩⟩
    · intro a why ha
      cases ha
      show (m.mutating && m.current == m.current) = true
      simp [hm]
  · have hm : m.mutating = false := Bool.eq_false_iff.mpr (fun hm => hs (hbusy.mp hm))
    obtain ⟨x,hx,hxk,hv⟩ := h.judged.verdict hm P hP
    have he := herr hs
    rw [if_pos hs]
    unfold Verdict at hv
    rw [hk] at hv
    split at hv
    case h_1 ho =>
      rw [if_pos hv]
      intro a why ha
      cases ha
      exact ⟨x,hx,hxk,ho⟩
    case h_2 ho =>
      obtain ⟨hok,hr,hl⟩ := hv
      rw [if_neg (by simp [hok])]
      intro a why ha
      simp only [hr] at ha
      cases ha
      exact ⟨x,hx,hxk,.inr ⟨ho,hl he⟩⟩
    case h_3 ho =>
      obtain ⟨hok,hr,hl⟩ := hv
      rw [if_neg (by simp [hok])]
      intro a why ha
      simp only [hr,if_true] at ha
      cases ha
      exact ⟨x,hx,hxk,ho,hl he⟩
    case h_4 ho =>
      obtain ⟨hok,hr,hl⟩ := hv
      rw [if_neg (by simp [hok])]
      intro a why ha
      simp only [hr] at ha
      cases ha
      exact ⟨x,hx,hxk,.inl ⟨ho,hl he⟩⟩
    all_goals simp_all

theorem judge_answered (kind : Kind) (h : Told opt p₀ m)
    (hk : m.posted.getLast?.map Mutation.kind = some kind)
    (herr : kind = .pool → m.state ≠ .switching → m.errorOverwritten = false) :
    Answered opt m.current (m.judge opt kind m.current) := by
  obtain ⟨P,hP,rfl⟩ := Option.map_eq_some_iff.mp hk
  unfold judge
  split
  · rename_i want hkind
    exact judgeRun_answered h hP hkind
  · rename_i hkind
    exact judgePool_answered h hP hkind (herr hkind)

theorem Told.settle (h : Told opt p₀ m) : Told opt p₀ (m.settleLocked none).2 := by
  have hf : Reach (Control.fine opt) (Punctual opt) m (m.settleLocked none).2 :=
    settle_moves ⟨⟨⟨trivial,trivial⟩,trivial⟩,trivial⟩ ⟨⟨⟨trivial,trivial⟩,trivial⟩,trivial⟩
  exact hf.invariant h (fun _ _ _ ht hk hs => ht.fine hk hs)

theorem settle_recorded (hs : m.state = .switching)
    (hn : (m.settleLocked none).2.state ≠ .switching) :
    (m.settleLocked none).2.errorOverwritten = false := by
  rcases settle_none m with h | ⟨-,h⟩ | ⟨-,h⟩
  · rw [h] at hn
    exact absurd hs hn
  · rw [h] at hn
    exact absurd hs hn
  · rw [h]
    unfold land
    split <;> rfl

theorem waitPass_answered (h : Told opt p₀ m) {kind : Kind} {answerBy : Nat}
    (hk : m.posted.getLast?.map Mutation.kind = some kind)
    (herr : kind = .pool → m.state ≠ .switching → m.errorOverwritten = false) :
    Answered opt m.current (m.waitPass opt kind m.current answerBy) := by
  unfold waitPass
  split
  · exact judge_answered kind h hk herr
  · rename_i hs
    simp only [ne_eq,Decidable.not_not] at hs
    simp only
    split
    · intro a why ha
      cases ha
    · have hcur : (m.settleLocked none).2.current = m.current := by
        simp only [current,settle_posted]
      have hj := judge_answered kind h.settle (by rw [settle_posted]; exact hk)
        (fun _ hn => settle_recorded hs hn)
      rw [hcur] at hj
      exact hj

/-- A waiting request that takes the lock again finds its own change still the
last one posted and, when it is told by `g_last_error`, its own text there. -/
def answersOwn (m : Machine) : Event → Bool
  | .callerWakes c =>
    match m.callers[c]? with
    | some ⟨kind,some own,_,none,_⟩ =>
      own == m.current && (kind ≠ .pool || m.state = .switching || !m.errorOverwritten)
    | _ => true
  | _ => true

def OwnAnswers (opt : Options) (m : Machine) (e : Event) : Prop :=
  InTime anyChange opt m e ∧ answersOwn m e = true

instance (opt : Options) (m : Machine) (e : Event) : Decidable (OwnAnswers opt m e) :=
  inferInstanceAs (Decidable (_ ∧ _))

theorem OwnAnswers.owner (ht : OwnAnswers opt m e) {kind : Kind} {k : Nat}
    (ho : Owner m e kind k) :
    k = m.current ∧ (kind = .pool → m.state ≠ .switching → m.errorOverwritten = false) := by
  obtain ⟨c,b,y,rfl,hc⟩ := ho
  have h := ht.2
  simp only [answersOwn,hc,Bool.and_eq_true,beq_iff_eq,Bool.or_eq_true,decide_eq_true_eq,
    Bool.not_eq_true'] at h
  refine ⟨h.1,fun hk hs => ?_⟩
  rcases h.2 with (hn | hn) | hn
  · exact absurd hk hn
  · exact absurd hn hs
  · exact hn

theorem OwnAnswers.inOrder (ht : OwnAnswers opt m e) : InOrder opt m e := by
  refine ⟨ht.1,?_⟩
  cases e with
  | callerWakes c =>
    simp only [timesOutOwn]
    split
    · rename_i want own b y hc
      have hown := (ht.owner ⟨c,b,y,rfl,hc⟩).1
      simp [hown]
    · rfl
  | _ => rfl

theorem Inside.punctual (hw : Inside opt m e m₁ mv) (h : Told opt p₀ m)
    (h₁ : Told opt p₀ m₁) (ht : OwnAnswers opt m e) (hf : fine opt m₁ mv = some m') :
    Punctual opt m₁ mv := by
  refine ⟨hw.within.orderly h.ordered.books h₁.ordered.books ht.inOrder hf,?_⟩
  have hcause : ∀ {cause : Option Nat}, JudgedAt opt m e m₁ ∧
      (∀ k, cause = some k → ∃ kind, Owner m e kind k) →
        ∀ k, cause = some k → k = m₁.current := by
    intro cause hj k hk
    obtain ⟨kind,ho⟩ := hj.2 k hk
    rw [(ht.owner ho).1]
    simp only [current,hj.1.posted]
  cases mv with
  | landsUnanswered cause => exact hcause hw
  | expires cause => exact hcause hw
  | explains why => exact hw
  | records cs => exact hw.elim
  | _ => trivial

theorem Recorded.describes {c : Caller} (hr : Recorded opt m e m₁ c) (h : Told opt p₀ m)
    (ht : OwnAnswers opt m e) {own : Nat} {r : ControlResult} {why : CStr}
    (ho : c.mutation = some own) (ha : c.answer = some (r,why)) :
    Describes opt m₁ own r why c.inFlightThen := by
  obtain ⟨m₀,k,hreach,hk,hw,hb,hcase⟩ := hr
  have hko : k = own := Option.some.inj (hk.symm.trans ho)
  subst hko
  have h₀ : Told opt p₀ m₀ :=
    hreach.invariant h (fun _ _ _ hm hi hf => hm.fine (hi.punctual h hm ht hf) hf)
  have hans : Answered opt m₀.current (m₀.waitPass opt c.kind m₀.current c.answerBy) ∧
      k = m₀.current := by
    rcases hcase with ⟨rfl,hown⟩ | ⟨hs,hcur,hlast⟩
    · obtain ⟨hcur,herr⟩ := ht.owner hown
      have hkind := hown.kind h.ordered.books
      rw [hcur,current,← List.getLast?_eq_getElem?] at hkind
      exact ⟨waitPass_answered h₀ hkind herr,hcur⟩
    · exact ⟨waitPass_answered h₀ hlast (fun _ hn => absurd hs hn),hcur⟩
  have hd := hans.1 r why (by rw [← hans.2,hw]; exact ha)
  rw [← hans.2,hw,← hb] at hd
  exact hd

theorem Within.punctual (hw : Within opt m e m₁ mv) (h : Told opt p₀ m)
    (h₁ : Told opt p₀ m₁) (ht : OwnAnswers opt m e) (hf : fine opt m₁ mv = some m') :
    Punctual opt m₁ mv := by
  cases mv with
  | records cs =>
    refine ⟨hw.orderly h.ordered.books h₁.ordered.books ht.inOrder hf,?_⟩
    intro c hc
    rcases hw c hc with hin | hnone | hr
    · exact .inl hin
    · refine .inr (fun own r why ho _ => ?_)
      rw [hnone] at ho
      cases ho
    · exact .inr (fun own r why ho ha => hr.describes h ht ho ha)
  | _ => exact Inside.punctual hw h h₁ ht hf

theorem Told.step (h : Told opt p₀ m) (ht : OwnAnswers opt m e) (hs : step opt m e = some m') :
    Told opt p₀ m' :=
  (step_moves hs).invariant h fun _ _ _ hm hw hf => hm.fine (hw.punctual h hm ht hf) hf

theorem told_start (n : Nat) (p : Profile) (hook : Bool) : Told opt p (start n p hook) := by
  refine ⟨ordered_start n p hook,(fun hm => by cases hm),?_,by simp [start],by simp [start]⟩
  intro _ P hP
  cases hP

/-- Every answer describes the caller's own change, and no waiter ends another's. -/
structure AnswersOwn (opt : Options) (m : Machine) : Prop where
  answers : ∀ c ∈ m.callers, ∀ own r why, c.mutation = some own → c.answer = some (r,why) →
    Describes opt m own r why c.inFlightThen
  causes : ∀ x ∈ m.endings, ∀ k, x.cause = some k → k = x.mutation

/-- In every run whose waiters wake to their own change, and in which no change
is given up while it is being applied, requests answer for themselves. -/
theorem answers_own_change (opt : Options) (n : Nat) (p : Profile) (hook : Bool) (m : Machine)
    (h : Reach (step opt) (OwnAnswers opt) (start n p hook) m) : AnswersOwn opt m := by
  have ht : Told opt p m := h.invariant (told_start n p hook) (fun _ _ _ hm hk hs => hm.step hk hs)
  exact ⟨ht.judged.answers,ht.judged.causes⟩

theorem switch_answers_own : ∃ m,
    Reach (step stock) (OwnAnswers stock) (start 1 kawpow true) m ∧
      m.callers.map Caller.answer = [some (.ok,[])] ∧ AnswersOwn stock m := by
  obtain ⟨m,hm,ha⟩ := reach_of_any (step stock) (OwnAnswers stock) (start 1 kawpow true)
    switchLanded (fun m => m.callers.map Caller.answer = [some (.ok,[])]) (by decide)
  exact ⟨m,hm,ha,answers_own_change stock 1 kawpow true m hm⟩

/-- The switch lands, and the worker that cannot build for it posts the way back
before the request that waited for the switch has the lock again. -/
def landedThenRestored : List Event :=
  switchTaken ++ [.moves,.writes,.readsHold,.connected,.wakes 0,
    .switchFailed (ascii "the kernel did not build"),.callerWakes 0,.tick (seconds 1),
    .callerWakes 0]

/-- A request is told that its change is in progress, when it is over and the
change in progress is another's. -/
theorem told_of_another : ¬ ∀ (opt : Options) (n : Nat) (p : Profile) (hook : Bool)
    (m : Machine), Reach (step opt) Stays (start n p hook) m → AnswersOwn opt m := by
  intro h
  obtain ⟨m,hm,ha⟩ := reach_of_any (step stock) Stays (start 1 kawpow true) landedThenRestored
    (fun m => ∃ c ∈ m.callers, c.mutation = some 0 ∧ c.answer = some (.accepted,[]) ∧
      c.inFlightThen = false) (by decide)
  obtain ⟨c,hc,hown,hans,hf⟩ := ha
  have hd := (h stock 1 kawpow true m hm).answers c hc 0 .accepted [] hown hans
  exact absurd (hf.symm.trans hd) (by decide)

end VkMiner.Control
