import VkMiner.Lib.Runs
import VkMiner.Stratum.Header
import VkMiner.Stratum.Method
set_option autoImplicit false

/-! The loop of `stratum_thread`: connect, subscribe, authorize, stamp the session,
wait for messages, publish work, reset. -/

namespace VkMiner.Session
open Stratum Runs

/-- The three places at which a posted pool change is taken. -/
inductive Site where
  | held | dial | live
  deriving DecidableEq, Repr

/-- Where the thread is. `asking` is the call of `control_pool_apply`, and
`retargeting` the part of it after the algorithm has been switched. -/
inductive Pc where
  | top | dialing
  | asking (site : Site)
  | retargeting (site : Site) (user : Option CStr)
  | connecting
  | subscribing (retry : Bool)
  | authorizing | extra | established | priming | waiting | bottom | gone
  deriving DecidableEq

/-- A pool change that is not refused: perhaps another algorithm, perhaps another user. -/
structure Change where
  algo : Option (Dialect × Nat)
  user : Option CStr

/-- What was put into `g_work`. `origin` is the connection whose notify the job
came from, `holder` the one that the stamp had been given to, and `number` how many
stamps had been given by then. -/
structure Publication where
  work : Work
  session : UInt32
  origin : Option Nat
  holder : Option Nat
  number : Nat
  deriving DecidableEq

/-- Connections are counted as they open. `opened` has the settings each of them was
opened under, `stamps` the sessions, the newest first; these, `origin` and
`published` are history. -/
structure Thread where
  ctx : StratumCtx
  settings : Settings
  extranonce : Bool
  needReset : Bool
  failures : Nat
  session : UInt32
  curl : Option Nat
  pc : Pc
  opened : List Settings
  stamps : List (UInt32 × Nat)
  origin : Option Nat
  published : List Publication

abbrev Line := Option Json

inductive Event where
  | turns (holds : Bool)
  | looks (holds : Bool)
  | asks (change : Option Change)
  | retargets
  | connects (ok inFlight : Bool)
  | subscribed (received : Option Line) (inFlight : Bool)
  | authorized (received : Option Line) (heap : Nat → UInt8) (sends inFlight : Bool)
  | extraLost (timedOut : Bool)
  | extraAnswered (line : Line) (heap : Nat → UInt8) (sends : Bool)
  | establishes
  | primes
  | interrupted
  | silent
  | received (line : Line) (heap : Nat → UInt8) (sends : Bool)
  | settles (resets : Bool)

namespace Thread

def start (s : Settings) (extranonce : Bool) : Thread where
  ctx := .zero
  settings := s
  extranonce := extranonce
  needReset := false
  failures := 0
  session := 0
  curl := none
  pc := .top
  opened := []
  stamps := []
  origin := none
  published := []

/-- A handshake that failed: once more, or never again. -/
def fail (opt : Options) (t : Thread) (inFlight : Bool) : Thread :=
  { t with
    curl := none
    failures := t.failures+1
    pc := if opt.retries.any (fun n => n ≤ t.failures) && !inFlight then .gone else .dialing }

def handle (opt : Options) (t : Thread) (line : Line) (heap : Nat → UInt8) (sends : Bool) :
    Bool × Thread :=
  let r := stratumHandleMethod opt t.settings heap sends t.ctx line
  (r.ok,
    { t with
      ctx := r.ctx
      curl := if r.closes then none else t.curl
      origin := if takesJob t.settings heap t.ctx line then t.curl else t.origin })

/-- After `control_pool_apply`, which says whether it changed anything. -/
def resume (t : Thread) (site : Site) (changed : Bool) : Thread :=
  match site with
  | .held => { t with pc := .top }
  | .dial => { t with pc := .connecting }
  | .live =>
    if changed then { t with needReset := true, pc := .top } else { t with pc := .waiting }

/-- The connection that a stamp was last given to. -/
def holder (t : Thread) (stamp : UInt32) : Option Nat :=
  (t.stamps.find? (fun e => e.1 == stamp)).map Prod.snd

/-- `stratum_gen_work` into `g_work`; there is no job to publish without an id. -/
def publish (h : Hashes) (t : Thread) : Option Thread :=
  match t.ctx.job.jobId with
  | none => none
  | some jobId =>
    let r := stratumGenWork t.settings.dialect h t.ctx jobId
    some { t with
      ctx := r.2
      published := t.published ++
        [⟨r.1,t.session,t.origin,t.holder t.session,t.stamps.length⟩] }

/-- The answer to mining.subscribe, or none; a line that is no good is asked for again. -/
def readSubscribe (opt : Options) (t : Thread) (retry : Bool) (received : Option Line)
    (inFlight : Bool) : Thread :=
  match received with
  | none => t.fail opt inFlight
  | some line =>
    let t' := { t with ctx := (readSubscribed t.settings t.ctx line).2 }
    if (readSubscribed t.settings t.ctx line).1 then { t' with pc := .authorizing }
    else if retry then t'.fail opt inFlight
    else { t' with pc := .subscribing true }

/-- A line of the authorize loop. Methods are dealt with until one is not; that
line is taken for the answer. Nothing is received on a connection that is closed. -/
def readAuthorize (opt : Options) (t : Thread) (received : Option Line) (heap : Nat → UInt8)
    (sends inFlight : Bool) : Option Thread :=
  match received with
  | none => some (t.fail opt inFlight)
  | some line =>
    let t' := (t.handle opt line heap sends).2
    if t.curl.isNone then none
    else if (t.handle opt line heap sends).1 then some { t' with pc := .authorizing }
    else if readAuthorized line then
      some { t' with pc := if t.extranonce then .extra else .established }
    else some (t'.fail opt inFlight)

/-- One step of the thread, up to the next place where it waits or another thread
can be told the difference. -/
def step (opt : Options) (h : Hashes) (t : Thread) (e : Event) : Option Thread :=
  match t.pc,e with
  | .top,.turns holds =>
    if holds then
      some { t with curl := none, needReset := false, failures := 0, pc := .asking .held }
    else if t.needReset then
      some { t with curl := none, needReset := false, failures := 0, pc := .dialing }
    else some { t with failures := 0, pc := .dialing }
  | .dialing,.looks holds =>
    if t.curl.isSome || holds then some { t with pc := .asking .live }
    else some { t with pc := .asking .dial }
  | .asking site,.asks change =>
    match change with
    | none => some (t.resume site false)
    | some change =>
      some { t with
        settings :=
          match change.algo with
          | none => t.settings
          | some (d,n) => { t.settings with dialect := d, nonceBits := n }
        pc := .retargeting site change.user }
  | .retargeting site user,.retargets =>
    some (resume { t with settings := { t.settings with user := user.getD t.settings.user } }
      site true)
  | .connecting,.connects ok inFlight =>
    if ok then
      some { t with
        curl := some t.opened.length
        opened := t.opened ++ [t.settings]
        pc := .subscribing false }
    else some (t.fail opt inFlight)
  | .subscribing retry,.subscribed received inFlight =>
    some (t.readSubscribe opt retry received inFlight)
  | .authorizing,.authorized received heap sends inFlight =>
    t.readAuthorize opt received heap sends inFlight
  | .extra,.extraLost timedOut =>
    some { t with extranonce := t.extranonce && !timedOut, pc := .established }
  | .extra,.extraAnswered line heap sends =>
    if t.curl.isNone then none
    else if jsonIntegerValue (jsonObjectGet line (ascii "id")) = 3 then
      some { t with pc := .established }
    else some { (t.handle opt line heap sends).2 with pc := .established }
  | .established,.establishes =>
    some { t with
      session := t.session+1
      stamps := (t.session+1,t.opened.length-1) :: t.stamps
      pc := .priming }
  | .priming,.primes =>
    if t.ctx.newJob then ({ t with pc := .dialing } : Thread).publish h
    else some { t with pc := .dialing }
  | .waiting,.interrupted => some { t with pc := .top }
  | .waiting,.silent => some { t with needReset := true, pc := .bottom }
  | .waiting,.received line heap sends =>
    if t.curl.isNone then none
    else some { (t.handle opt line heap sends).2 with pc := .bottom }
  | .bottom,.settles resets =>
    if t.needReset then some { t with pc := .top }
    else if resets then some { t with needReset := true, pc := .top }
    else if t.ctx.newJob then ({ t with pc := .top } : Thread).publish h
    else some { t with pc := .top }
  | _,_ => none

/-- A connection is opened with no job left over from the one before it. -/
def Fresh (t : Thread) (e : Event) : Prop :=
  match e with
  | .connects true _ => t.ctx.newJob = false
  | _ => True

instance (t : Thread) (e : Event) : Decidable (Fresh t e) := by
  unfold Fresh
  split <;> infer_instance

def Stamped (t : Thread) : Prop :=
  ∃ n older, t.stamps = (t.session,n) :: older ∧ n+1 = t.opened.length

def Placed (t : Thread) : Prop :=
  match t.pc with
  | .top | .dialing | .asking _ | .retargeting _ _ | .connecting | .waiting =>
    t.curl.isSome = true → t.Stamped
  | .subscribing _ | .authorizing | .extra | .established => t.opened ≠ []
  | .priming => t.Stamped
  | .bottom => t.needReset = false ∨ t.curl.isSome = true → t.Stamped
  | .gone => True

/-- A publication under its own connection's stamp, and when that was. -/
structure Dated (t : Thread) (p : Publication) : Prop where
  own : ∃ n, p.holder = some n ∧ p.origin = some n
  stamp : p.session = UInt32.ofNat p.number
  past : p.number ≤ t.stamps.length
  current : p.number = t.stamps.length →
    ∃ n older, t.stamps = (t.session,n) :: older ∧ p.origin = some n

/-- The job that waits to be published came in on the connection opened last. -/
structure Traced (t : Thread) : Prop where
  curl : ∀ n, t.curl = some n → n+1 = t.opened.length
  count : t.session = UInt32.ofNat t.stamps.length
  origin : t.ctx.newJob = true → ∃ n, t.origin = some n ∧ n+1 = t.opened.length
  placed : t.Placed
  published : ∀ p ∈ t.published, t.Dated p

variable {opt : Options} {h : Hashes} {t t' : Thread} {e : Event}

theorem Traced.start (s : Settings) (extranonce : Bool) : Traced (start s extranonce) where
  curl n hn := by cases hn
  count := rfl
  origin hj := by cases hj
  placed hc := by cases hc
  published p hp := by cases hp

theorem Traced.frame (ht : Traced t) (ho : t'.opened = t.opened) (hs : t'.session = t.session)
    (hst : t'.stamps = t.stamps) (hr : t'.origin = t.origin) (hj : t'.ctx.newJob = t.ctx.newJob)
    (hp : t'.published = t.published) (hc : ∀ n, t'.curl = some n → t.curl = some n)
    (hplaced : t'.Placed) : Traced t' where
  curl n hn := ho ▸ ht.curl n (hc n hn)
  count := by rw [hs,hst,ht.count]
  origin hn := by
    rw [hr,ho]
    exact ht.origin (hj ▸ hn)
  placed := hplaced
  published p hm := by
    have hd := ht.published p (hp ▸ hm)
    exact ⟨hd.own,hd.stamp,hst ▸ hd.past,fun hn => by
      rw [hs,hst]
      exact hd.current (hst ▸ hn)⟩

theorem placed_fail (t : Thread) (inFlight : Bool) : (t.fail opt inFlight).Placed := by
  unfold Thread.fail Placed
  cases opt.retries.any (fun n => n ≤ t.failures) && !inFlight <;>
    simp only [if_true,Bool.false_eq_true,if_false,Option.isSome_none,false_imp_iff]

theorem Traced.fail (ht : Traced t) (inFlight : Bool) : Traced (t.fail opt inFlight) :=
  ht.frame rfl rfl rfl rfl rfl rfl (fun n hn => by cases hn) (placed_fail t inFlight)

theorem handle_newJob (t : Thread) (line : Line) (heap : Nat → UInt8) (sends : Bool) :
    (t.handle opt line heap sends).2.ctx.newJob =
      (t.ctx.newJob || takesJob t.settings heap t.ctx line) :=
  handleMethod_newJob opt t.settings heap sends t.ctx line

theorem handle_curl {t : Thread} {line : Line} {heap : Nat → UInt8} {sends : Bool} {n : Nat}
    (hn : (t.handle opt line heap sends).2.curl = some n) : t.curl = some n := by
  simp only [Thread.handle] at hn
  split at hn
  · cases hn
  · exact hn

theorem Traced.handle (ht : Traced t) (line : Line) (heap : Nat → UInt8) (sends : Bool)
    (hc : t.curl.isNone ≠ true) {pc : Pc}
    (hplaced : ({ (t.handle opt line heap sends).2 with pc := pc } : Thread).Placed) :
    Traced { (t.handle opt line heap sends).2 with pc := pc } where
  curl n hn := ht.curl n (handle_curl hn)
  count := ht.count
  origin hj := by
    have hs : (t.ctx.newJob || takesJob t.settings heap t.ctx line) = true :=
      (handle_newJob t line heap sends).symm.trans hj
    cases hn : t.curl with
    | none => simp [hn] at hc
    | some n =>
      simp only [Thread.handle]
      cases hk : takesJob t.settings heap t.ctx line with
      | true => exact ⟨n,by simp [hn],ht.curl n hn⟩
      | false =>
        simp only [hk,Bool.or_false] at hs
        simpa using ht.origin hs
  placed := hplaced
  published p hp :=
    have hd := ht.published p hp
    ⟨hd.own,hd.stamp,hd.past,hd.current⟩

theorem Stamped.holder (hs : t.Stamped) :
    ∃ n older, t.stamps = (t.session,n) :: older ∧ t.holder t.session = some n ∧
      n+1 = t.opened.length := by
  obtain ⟨n,older,he,hn⟩ := hs
  exact ⟨n,older,he,by simp [Thread.holder,he],hn⟩

theorem Traced.publish (ht : Traced t) (hs : t.Stamped) (hj : t.ctx.newJob = true)
    (hp : t.publish h = some t') : Traced t' := by
  unfold Thread.publish at hp
  split at hp
  · cases hp
  · next jobId hid =>
    cases hp
    have hplaced := ht.placed
    refine ⟨ht.curl,ht.count,fun hn => ?_,hplaced,fun p hp => ?_⟩
    · cases hn
    · rcases List.mem_append.mp hp with hp | hp
      · have hd := ht.published p hp
        exact ⟨hd.own,hd.stamp,hd.past,hd.current⟩
      · obtain ⟨n,older,he,hn,hl⟩ := hs.holder
        obtain ⟨k,hk,hk'⟩ := ht.origin hj
        have hnk : n = k := by omega
        subst hnk
        rw [List.mem_singleton.mp hp]
        exact ⟨⟨n,hn,hk⟩,ht.count,Nat.le_refl _,fun _ => ⟨n,older,he,hk⟩⟩

theorem Traced.resume (ht : Traced t) {site : Site} {changed : Bool}
    (hs : t.curl.isSome = true → t.Stamped) : Traced (t.resume site changed) := by
  cases site with
  | held => exact ht.frame rfl rfl rfl rfl rfl rfl (fun _ hn => hn) hs
  | dial => exact ht.frame rfl rfl rfl rfl rfl rfl (fun _ hn => hn) hs
  | live =>
    unfold Thread.resume
    cases changed with
    | true => exact ht.frame rfl rfl rfl rfl rfl rfl (fun _ hn => hn) hs
    | false => exact ht.frame rfl rfl rfl rfl rfl rfl (fun _ hn => hn) hs

theorem Traced.readSubscribe (ht : Traced t) (ho : t.opened ≠ []) (retry : Bool)
    (received : Option Line) (inFlight : Bool) :
    Traced (t.readSubscribe opt retry received inFlight) := by
  cases received with
  | none => exact ht.fail _
  | some line =>
    have hj := (readSubscribed_job t.settings t.ctx line).2
    have hc (pc : Pc) (hp : ({ t with ctx := (readSubscribed t.settings t.ctx line).2, pc := pc } :
        Thread).Placed) : Traced { t with ctx := (readSubscribed t.settings t.ctx line).2, pc := pc } :=
      ht.frame rfl rfl rfl rfl hj rfl (fun _ hn => hn) hp
    simp only [Thread.readSubscribe]
    split
    · exact hc _ ho
    · split
      · exact Traced.fail (hc t.pc ht.placed) _
      · exact hc _ ho

theorem Traced.readAuthorize {received : Option Line} {heap : Nat → UInt8} {sends inFlight : Bool}
    (ht : Traced t) (ho : t.opened ≠ [])
    (hs : t.readAuthorize opt received heap sends inFlight = some t') : Traced t' := by
  cases received with
  | none =>
    cases hs
    exact ht.fail _
  | some line =>
    simp only [Thread.readAuthorize] at hs
    split at hs
    · cases hs
    · next hc =>
      split at hs
      · cases hs
        exact ht.handle _ _ _ hc ho
      · split at hs
        · cases hs
          refine ht.handle _ _ _ hc ?_
          cases t.extranonce <;> exact ho
        · cases hs
          have hd : Traced { (t.handle opt line heap sends).2 with pc := .authorizing } :=
            ht.handle _ _ _ hc ho
          exact hd.fail _

theorem Traced.step (ht : Traced t) (ho : Fresh t e) (hs : t.step opt h e = some t') :
    Traced t' := by
  have hplaced := ht.placed
  unfold Thread.step at hs
  unfold Placed at hplaced
  split at hs <;> rename_i hpc
  all_goals try simp only [hpc] at hplaced
  · -- top: the connection goes, or is kept as it is
    split at hs
    · cases hs
      exact ht.frame rfl rfl rfl rfl rfl rfl (fun _ hn => by cases hn) (fun hc => by cases hc)
    · split at hs
      · cases hs
        exact ht.frame rfl rfl rfl rfl rfl rfl (fun _ hn => by cases hn) (fun hc => by cases hc)
      · cases hs
        exact ht.frame rfl rfl rfl rfl rfl rfl (fun _ hn => hn) hplaced
  · -- dialing
    split at hs <;> cases hs <;>
      exact ht.frame rfl rfl rfl rfl rfl rfl (fun _ hn => hn) hplaced
  · -- asking
    split at hs
    · cases hs
      exact ht.resume hplaced
    · cases hs
      exact ht.frame rfl rfl rfl rfl rfl rfl (fun _ hn => hn) hplaced
  · -- retargeting
    next site user =>
    cases hs
    have hu : Traced { t with settings := { t.settings with user := user.getD t.settings.user } } :=
      ht.frame rfl rfl rfl rfl rfl rfl (fun _ hn => hn) ht.placed
    exact hu.resume hplaced
  · -- connecting: nothing waits to be published under the new connection's stamp
    split at hs
    · next hok =>
      cases hs
      subst hok
      refine ⟨fun n hn => ?_,ht.count,fun hj => ?_,?_,fun p hp => ?_⟩
      · cases hn
        simp
      · rw [show t.ctx.newJob = false from ho] at hj
        cases hj
      · simp [Placed]
      · have hd := ht.published p hp
        exact ⟨hd.own,hd.stamp,hd.past,hd.current⟩
    · cases hs
      exact ht.fail _
  · cases hs
    exact ht.readSubscribe hplaced _ _ _
  · exact ht.readAuthorize hplaced hs
  · -- extranonce.subscribe, unanswered
    cases hs
    exact ht.frame rfl rfl rfl rfl rfl rfl (fun _ hn => hn) hplaced
  · split at hs
    · cases hs
    · next hc =>
      split at hs
      · cases hs
        exact ht.frame rfl rfl rfl rfl rfl rfl (fun _ hn => hn) hplaced
      · cases hs
        exact ht.handle _ _ _ hc hplaced
  · -- established: the stamp is given to the connection opened last
    cases hs
    have hl : t.opened.length-1+1 = t.opened.length := by
      have hpos := List.length_pos_iff.mpr hplaced
      omega
    refine ⟨ht.curl,?_,ht.origin,⟨_,_,rfl,hl⟩,fun p hp => ?_⟩
    · rw [ht.count,List.length_cons]
      simp
    · have hd := ht.published p hp
      refine ⟨?_,hd.stamp,Nat.le_succ_of_le hd.past,fun hn => ?_⟩
      · exact hd.own
      · have hlt := hd.past
        simp only [List.length_cons] at hn
        omega
  · -- priming
    split at hs
    · next hj =>
      have hd : Traced { t with pc := .dialing } :=
        ht.frame rfl rfl rfl rfl rfl rfl (fun _ hn => hn) (fun _ => hplaced)
      exact hd.publish hplaced hj hs
    · cases hs
      exact ht.frame rfl rfl rfl rfl rfl rfl (fun _ hn => hn) (fun _ => hplaced)
  · -- interrupted
    cases hs
    exact ht.frame rfl rfl rfl rfl rfl rfl (fun _ hn => hn) hplaced
  · -- silence
    cases hs
    refine ht.frame rfl rfl rfl rfl rfl rfl (fun _ hn => hn) (fun hc => ?_)
    exact hplaced (hc.resolve_left (fun hr => by cases hr))
  · -- a line
    split at hs
    · cases hs
    · next hc =>
      cases hs
      refine ht.handle _ _ _ hc (fun _ => ?_)
      exact hplaced (by simpa [Option.isSome_iff_ne_none] using hc)
  · -- bottom
    split at hs
    · cases hs
      exact ht.frame rfl rfl rfl rfl rfl rfl (fun _ hn => hn) (fun hc => hplaced (.inr hc))
    · next hr =>
      have hst : t.Stamped := hplaced (.inl (by simpa using hr))
      split at hs
      · cases hs
        exact ht.frame rfl rfl rfl rfl rfl rfl (fun _ hn => hn) (fun _ => hst)
      · split at hs
        · next hj =>
          have hd : Traced { t with pc := .top } :=
            ht.frame rfl rfl rfl rfl rfl rfl (fun _ hn => hn) (fun _ => hst)
          exact hd.publish hst hj hs
        · cases hs
          exact ht.frame rfl rfl rfl rfl rfl rfl (fun _ hn => hn) (fun _ => hst)
  · cases hs

theorem traced_reach {s : Settings} {extranonce : Bool}
    (hr : Reach (Thread.step opt h) Fresh (start s extranonce) t) : Traced t :=
  hr.invariant (.start s extranonce) (fun _ _ _ ht ho hs => ht.step ho hs)

/-- No notify is published under the session of a later connection, as long as no
connection is opened with a job left over. -/
theorem published_under_own_session (opt : Options) (h : Hashes) (s : Settings)
    (extranonce : Bool) (t : Thread)
    (hr : Reach (Thread.step opt h) Fresh (start s extranonce) t) :
    ∀ p ∈ t.published, p.session ≠ 0 → ∃ n, p.holder = some n ∧ p.origin = some n :=
  fun p hp _ => ((traced_reach hr).published p hp).own

end Thread

def answer (result : Json) : Line := some (.object [(ascii "result",result)])

def subscribedTo : Line := answer (.array [.null,.string (ascii "0a0b"),.integer 4])

def notifyLine : Line :=
  (plainNotify (ascii "a") (ascii "20000000") (word64 '2')).map
    (fun params => .object [(ascii "method",.string (ascii "mining.notify")),
      (ascii "params",params)])

def bitcoin : Settings := ⟨.bitcoin,32,ascii "user"⟩

def patient : Options := ⟨false,none,fun _ => none⟩

def dials : List Event :=
  [.looks false,.asks none,.connects true false,.subscribed (some subscribedTo) false]

def authorizes (ok : Bool) : Event :=
  .authorized (some (answer (.bool ok))) (fun _ => 0) true false

def firstJob : List Event :=
  .turns false :: dials ++ [authorizes true,.establishes,.primes,.looks false,.asks none,
    .received notifyLine (fun _ => 0) true,.settles false]

theorem first_job_under_own_session :
    ∃ t, Reach (Thread.step patient plainHashes) Thread.Fresh (.start bitcoin false) t ∧
      t.published.length = 1 ∧
      ∀ p ∈ t.published, p.session ≠ 0 → ∃ n, p.holder = some n ∧ p.origin = some n := by
  obtain ⟨t,hr,hl⟩ := reach_of_any (Thread.step patient plainHashes) Thread.Fresh (.start bitcoin false)
    firstJob (fun t => t.published.length = 1) (by decide)
  exact ⟨t,hr,hl,Thread.published_under_own_session patient plainHashes bitcoin false t hr⟩

/-- A job that came before the answer to an authorize is published by the next
connection, which has never heard of it. -/
theorem old_job_under_new_session :
    ¬ ∀ (opt : Options) (h : Hashes) (s : Settings) (extranonce : Bool) (t : Thread),
      Reach (Thread.step opt h) free (.start s extranonce) t →
        ∀ p ∈ t.published, p.session ≠ 0 → ∃ n, p.holder = some n ∧ p.origin = some n := by
  intro hall
  obtain ⟨t,hr,hp⟩ := reach_of_any (Thread.step patient plainHashes) free (.start bitcoin false)
    (.turns false :: dials ++ [.authorized (some notifyLine) (fun _ => 0) true false,
      authorizes false] ++ dials ++ [authorizes true,.establishes,.primes])
    (fun t => t.published.map (fun p => (p.session,p.holder,p.origin)) = [(1,some 1,some 0)])
    (by decide)
  obtain ⟨p,hm,he⟩ : ∃ p ∈ t.published, (p.session,p.holder,p.origin) = (1,some 1,some 0) := by
    rw [← List.mem_map,hp]
    exact List.mem_singleton_self _
  simp only [Prod.mk.injEq] at he
  obtain ⟨n,hh,ho⟩ := hall patient plainHashes bitcoin false t hr p hm (by simp [he.1])
  cases he.2.1.symm.trans hh
  cases he.2.2.symm.trans ho

end VkMiner.Session
