import VkMiner.Session.Thread
set_option autoImplicit false

/-! Shares on their way out: the workers that find them, the queue, and
`workio_submit_work`, beside the thread that owns the connection. -/

namespace VkMiner.Session
open Stratum Runs

/-- A share in the queue: a worker's copy of the job it was `issued` with. -/
structure Found where
  work : Work
  nonce : UInt64
  mixhash : Bytes
  submitId : Nat
  issued : Publication
  deriving DecidableEq

def buildRequest (s : Settings) (f : Found) : CStr :=
  if s.dialect = .progpow then
    (progpowBuildStratumRequest s.user f.work f.nonce f.mixhash f.submitId).line
  else (stdLeBuildStratumRequest s.dialect s.user f.work f.submitId).line

/-- The workio thread, with the share it has in hand and how often it has failed. -/
inductive Workio where
  | idle
  | checking (f : Found) (failures : Nat)
  | building (f : Found) (failures : Nat)
  | sending (f : Found) (failures : Nat) (text : CStr)
  | gone
  deriving DecidableEq

/-- A line that was written, and the connection it was written to. -/
structure Sent where
  text : CStr
  conn : Nat
  share : Found
  deriving DecidableEq

structure Desk where
  thread : Thread
  queue : List Found
  workio : Workio
  stale : Nat
  sent : List Sent

inductive Action where
  | thread (e : Event)
  | finds (i : Nat) (work : Work) (nonce : UInt64) (mixhash : Bytes) (submitId : Nat)
  | pops
  | checks
  | builds
  | sends (ok : Bool)

namespace Desk

def start (s : Settings) (extranonce : Bool) : Desk where
  thread := .start s extranonce
  queue := []
  workio := .idle
  stale := 0
  sent := []

/-- A line that could not be sent: the share is checked again, or workio ends. -/
def unsent (opt : Options) (m : Desk) (f : Found) (failures : Nat) : Desk :=
  { m with
    workio := if opt.retries.any (fun n => n ≤ failures) then .gone else .checking f (failures+1) }

/-- A worker finds a share on any job that was published, however long ago, and
whatever it has rolled since. -/
def step (opt : Options) (h : Hashes) (m : Desk) (a : Action) : Option Desk :=
  match a,m.workio with
  | .thread e,_ => (m.thread.step opt h e).map (fun t => { m with thread := t })
  | .finds i work nonce mixhash submitId,_ =>
    match m.thread.published[i]? with
    | none => none
    | some p =>
      if work.jobId = p.work.jobId then
        some { m with queue := m.queue ++ [⟨work,nonce,mixhash,submitId,p⟩] }
      else none
  | .pops,.idle =>
    match m.queue with
    | [] => none
    | f :: rest => some { m with queue := rest, workio := .checking f 0 }
  | .checks,.checking f failures =>
    if f.issued.session ≠ m.thread.session then some { m with workio := .idle, stale := m.stale+1 }
    else some { m with workio := .building f failures }
  | .builds,.building f failures =>
    some { m with workio := .sending f failures (buildRequest m.thread.settings f) }
  | .sends ok,.sending f failures text =>
    match m.thread.curl with
    | none => some (m.unsent opt f failures)
    | some conn =>
      if ok then some { m with workio := .idle, sent := m.sent ++ [⟨text,conn,f⟩] }
      else some (m.unsent opt f failures)
  | _,_ => none

end Desk

def Event.moves : Event → Bool
  | .connects ok _ => ok
  | .asks change => change.isSome
  | .retargets => true
  | _ => false

def Workio.midway : Workio → Bool
  | .building _ _ | .sending _ _ _ => true
  | _ => false

namespace Desk

/-- The connection that is up, if one is, has been given the stamp in force, and
nothing has been changed since it was opened. -/
def Settled (t : Thread) : Prop :=
  ∀ conn ∈ t.curl, t.stamps.head?.map Prod.snd = some conn ∧ t.opened[conn]? = some t.settings

instance (t : Thread) : Decidable (Settled t) :=
  inferInstanceAs (Decidable (∀ conn ∈ t.curl,
    t.stamps.head?.map Prod.snd = some conn ∧ t.opened[conn]? = some t.settings))

/-- A share passes the check on a settled session that is not a whole turn of the
counter past its own, and nothing moves from there to the send. -/
def InTouch (m : Desk) (a : Action) : Prop :=
  match a,m.workio with
  | .thread e,w => m.thread.Fresh e ∧ (e.moves = true → w.midway = false)
  | .checks,.checking f _ =>
    f.issued.session = m.thread.session →
      Settled m.thread ∧ m.thread.stamps.length-f.issued.number < 4294967296
  | _,_ => True

instance (m : Desk) (a : Action) : Decidable (InTouch m a) := by
  unfold InTouch
  split <;> infer_instance

/-- The line goes out on the connection whose notify issued the job, as that
connection was set up. -/
def Sent.Addressed (t : Thread) (l : Sent) : Prop :=
  l.share.issued.origin = some l.conn ∧
    ∃ s, t.opened[l.conn]? = some s ∧ l.text = buildRequest s l.share

/-- A share that has passed the check may be sent on the connection that is up. -/
def Cleared (t : Thread) (f : Found) : Prop :=
  ∀ conn, t.curl = some conn → f.issued.origin = some conn ∧ t.opened[conn]? = some t.settings

end Desk

variable {opt : Options} {h : Hashes} {t t' : Thread} {e : Event}

structure Thread.Keeps (t t' : Thread) : Prop where
  opened : t'.opened = t.opened
  settings : t'.settings = t.settings
  curl : ∀ n, t'.curl = some n → t.curl = some n
  published : t.published <+: t'.published

theorem Thread.Keeps.rfl' {t' : Thread} (ho : t'.opened = t.opened)
    (hs : t'.settings = t.settings) (hc : ∀ n, t'.curl = some n → t.curl = some n)
    (hp : t'.published = t.published) : t.Keeps t' :=
  ⟨ho,hs,hc,hp ▸ List.prefix_refl _⟩

theorem keeps_fail (t : Thread) (inFlight : Bool) : t.Keeps (t.fail opt inFlight) :=
  .rfl' rfl rfl (fun _ hn => by cases hn) rfl

theorem keeps_publish {pc : Pc} (hp : ({ t with pc := pc } : Thread).publish h = some t') :
    t.Keeps t' := by
  unfold Thread.publish at hp
  split at hp
  · cases hp
  · cases hp
    exact ⟨rfl,rfl,fun _ hn => hn,List.prefix_append _ _⟩

theorem keeps_readSubscribe (t : Thread) (retry : Bool) (received : Option Line)
    (inFlight : Bool) : t.Keeps (t.readSubscribe opt retry received inFlight) := by
  cases received with
  | none => exact keeps_fail t inFlight
  | some line =>
    simp only [Thread.readSubscribe]
    split
    · exact .rfl' rfl rfl (fun _ hn => hn) rfl
    · split
      · exact .rfl' rfl rfl (fun _ hn => by cases hn) rfl
      · exact .rfl' rfl rfl (fun _ hn => hn) rfl

theorem keeps_readAuthorize {received : Option Line} {heap : Nat → UInt8} {sends inFlight : Bool}
    (hs : t.readAuthorize opt received heap sends inFlight = some t') : t.Keeps t' := by
  cases received with
  | none =>
    cases hs
    exact keeps_fail t inFlight
  | some line =>
    simp only [Thread.readAuthorize] at hs
    split at hs
    · cases hs
    · split at hs
      · cases hs
        exact .rfl' rfl rfl (fun _ => Thread.handle_curl) rfl
      · split at hs <;> cases hs
        · exact .rfl' rfl rfl (fun _ => Thread.handle_curl) rfl
        · exact .rfl' rfl rfl (fun _ hn => by cases hn) rfl

theorem step_keeps (hm : e.moves = false) (hs : t.step opt h e = some t') : t.Keeps t' := by
  unfold Thread.step at hs
  split at hs
  · split at hs
    · cases hs
      exact .rfl' rfl rfl (fun _ hn => by cases hn) rfl
    · split at hs <;> cases hs
      · exact .rfl' rfl rfl (fun _ hn => by cases hn) rfl
      · exact .rfl' rfl rfl (fun _ hn => hn) rfl
  · split at hs <;> cases hs <;> exact .rfl' rfl rfl (fun _ hn => hn) rfl
  · next site change _ =>
    cases change with
    | some change => cases hm
    | none =>
      cases hs
      cases site <;> exact .rfl' rfl rfl (fun _ hn => hn) rfl
  · cases hm
  · next ok inFlight _ =>
    cases ok with
    | true => cases hm
    | false =>
      cases hs
      exact keeps_fail t inFlight
  · cases hs
    exact keeps_readSubscribe t _ _ _
  · exact keeps_readAuthorize hs
  · cases hs
    exact .rfl' rfl rfl (fun _ hn => hn) rfl
  · split at hs
    · cases hs
    · split at hs <;> cases hs
      · exact .rfl' rfl rfl (fun _ hn => hn) rfl
      · exact .rfl' rfl rfl (fun _ => Thread.handle_curl) rfl
  · cases hs
    exact .rfl' rfl rfl (fun _ hn => hn) rfl
  · split at hs
    · exact keeps_publish hs
    · cases hs
      exact .rfl' rfl rfl (fun _ hn => hn) rfl
  · cases hs
    exact .rfl' rfl rfl (fun _ hn => hn) rfl
  · cases hs
    exact .rfl' rfl rfl (fun _ hn => hn) rfl
  · split at hs <;> cases hs
    exact .rfl' rfl rfl (fun _ => Thread.handle_curl) rfl
  · split at hs
    · cases hs
      exact .rfl' rfl rfl (fun _ hn => hn) rfl
    · split at hs
      · cases hs
        exact .rfl' rfl rfl (fun _ hn => hn) rfl
      · split at hs
        · exact keeps_publish hs
        · cases hs
          exact .rfl' rfl rfl (fun _ hn => hn) rfl
  · cases hs

theorem step_moves (hm : e.moves = true) (hs : t.step opt h e = some t') :
    t.opened <+: t'.opened ∧ t'.published = t.published := by
  have same {t'' : Thread} (ho : t''.opened = t.opened) (hp : t''.published = t.published) :
      t.opened <+: t''.opened ∧ t''.published = t.published :=
    ⟨ho ▸ List.prefix_refl _,hp⟩
  unfold Thread.step at hs
  split at hs <;> try cases hm
  · next site change _ =>
    cases change with
    | none => cases hm
    | some change =>
      cases hs
      exact same rfl rfl
  · next site user _ =>
    cases hs
    cases site <;> exact same rfl rfl
  · cases hs
    exact ⟨List.prefix_append _ _,rfl⟩
  · cases hs

theorem step_grows (hs : t.step opt h e = some t') :
    t.opened <+: t'.opened ∧ t.published <+: t'.published := by
  cases hm : e.moves with
  | true =>
    obtain ⟨ho,hp⟩ := step_moves hm hs
    exact ⟨ho,hp ▸ List.prefix_refl _⟩
  | false =>
    have hk := step_keeps hm hs
    exact ⟨hk.opened ▸ List.prefix_refl _,hk.published⟩

theorem get_later {α : Type*} {xs ys : List α} {i : Nat} {x : α} (hp : xs <+: ys)
    (hx : xs[i]? = some x) : ys[i]? = some x := by
  obtain ⟨zs,rfl⟩ := hp
  have hi : i < xs.length := by
    rw [List.getElem?_eq_some_iff] at hx
    exact hx.1
  rw [List.getElem?_append_left hi,hx]

def Workio.Holds (t : Thread) : Workio → Prop
  | .idle | .gone => True
  | .checking f _ => f.issued ∈ t.published
  | .building f _ => f.issued ∈ t.published ∧ Desk.Cleared t f
  | .sending f _ text =>
    f.issued ∈ t.published ∧ Desk.Cleared t f ∧ text = buildRequest t.settings f

namespace Desk

structure InOrder (m : Desk) : Prop where
  thread : m.thread.Traced
  queue : ∀ f ∈ m.queue, f.issued ∈ m.thread.published
  hand : m.workio.Holds m.thread
  sent : ∀ l ∈ m.sent, Sent.Addressed m.thread l

variable {m m' : Desk} {a : Action}

theorem Cleared.keeps {f : Found} (hc : Cleared t f) (hk : t.Keeps t') : Cleared t' f := by
  intro conn hn
  obtain ⟨ho,hs⟩ := hc conn (hk.curl conn hn)
  exact ⟨ho,by rw [hk.opened,hk.settings,hs]⟩

theorem Sent.Addressed.grows {l : Sent} (hl : Sent.Addressed t l) (ho : t.opened <+: t'.opened) :
    Sent.Addressed t' l := by
  obtain ⟨hc,s,hs,ht⟩ := hl
  exact ⟨hc,s,get_later ho hs,ht⟩

theorem InOrder.start (s : Settings) (extranonce : Bool) : InOrder (start s extranonce) where
  thread := .start s extranonce
  queue f hf := by cases hf
  hand := trivial
  sent l hl := by cases hl

theorem holds_step {w : Workio} (hw : w.Holds t) (hm : e.moves = true → w.midway = false)
    (hs : t.step opt h e = some t') : w.Holds t' := by
  have hsub := (step_grows hs).2.subset
  cases w with
  | idle => trivial
  | gone => trivial
  | checking f failures => exact hsub hw
  | building f failures =>
    have hk := step_keeps (Bool.eq_false_iff.mpr (fun he => by cases hm he)) hs
    exact ⟨hsub hw.1,hw.2.keeps hk⟩
  | sending f failures text =>
    have hk := step_keeps (Bool.eq_false_iff.mpr (fun he => by cases hm he)) hs
    exact ⟨hsub hw.1,hw.2.1.keeps hk,by rw [hk.settings,hw.2.2]⟩

theorem passes_cleared {f : Found} (ht : t.Traced) (hf : f.issued ∈ t.published)
    (hs : f.issued.session = t.session) (hset : Settled t)
    (hage : t.stamps.length-f.issued.number < 4294967296) : Cleared t f := by
  have hd := ht.published _ hf
  have hmod : f.issued.number%4294967296 = t.stamps.length%4294967296 := by
    have he : UInt32.ofNat f.issued.number = UInt32.ofNat t.stamps.length := by
      rw [← hd.stamp,hs,ht.count]
    simpa using congrArg UInt32.toNat he
  have hpast := hd.past
  have hnow : f.issued.number = t.stamps.length := by omega
  obtain ⟨n,older,hst,ho⟩ := hd.current hnow
  intro conn hc
  obtain ⟨hhead,hopened⟩ := hset conn hc
  rw [hst] at hhead
  cases hhead
  exact ⟨ho,hopened⟩

theorem holds_unsent {w : Workio} {f : Found} {failures : Nat} (hf : f.issued ∈ m.thread.published)
    (hw : (m.unsent opt f failures).workio = w) : w.Holds m.thread := by
  subst hw
  unfold unsent
  cases opt.retries.any (fun n => n ≤ failures)
  · exact hf
  · trivial

theorem InOrder.step (hi : InOrder m) (ho : InTouch m a) (hs : m.step opt h a = some m') :
    InOrder m' := by
  unfold Desk.step at hs
  unfold InTouch at ho
  split at hs
  · next e w =>
    obtain ⟨t,ht,rfl⟩ := Option.map_eq_some_iff.mp hs
    obtain ⟨hopened,hpub⟩ := step_grows ht
    exact ⟨hi.thread.step ho.1 ht,fun f hf => hpub.subset (hi.queue f hf),
      holds_step hi.hand ho.2 ht,fun l hl => (hi.sent l hl).grows hopened⟩
  · next i work nonce mixhash submitId w =>
    split at hs
    · cases hs
    · next p hp =>
      split at hs <;> cases hs
      refine ⟨hi.thread,fun f hf => ?_,hi.hand,hi.sent⟩
      rcases List.mem_append.mp hf with hf | hf
      · exact hi.queue f hf
      · rw [List.mem_singleton.mp hf]
        exact List.mem_of_getElem? hp
  · split at hs
    · cases hs
    · next f rest hq =>
      cases hs
      have hin : ∀ g ∈ f :: rest, g.issued ∈ m.thread.published := hq ▸ hi.queue
      exact ⟨hi.thread,fun g hg => hin g (List.mem_cons_of_mem f hg),
        hin f List.mem_cons_self,hi.sent⟩
  · next f failures hw =>
    have hf : f.issued ∈ m.thread.published := by
      have hh := hi.hand
      rwa [hw] at hh
    simp only [hw] at ho
    split at hs
    · cases hs
      exact ⟨hi.thread,hi.queue,trivial,hi.sent⟩
    · next hsame =>
      cases hs
      have hsame : f.issued.session = m.thread.session := not_not.mp hsame
      obtain ⟨hset,hage⟩ := ho hsame
      exact ⟨hi.thread,hi.queue,⟨hf,passes_cleared hi.thread hf hsame hset hage⟩,hi.sent⟩
  · next f failures hw =>
    have hh := hi.hand
    rw [hw] at hh
    cases hs
    exact ⟨hi.thread,hi.queue,⟨hh.1,hh.2,rfl⟩,hi.sent⟩
  · next ok f failures text hw =>
    have hh := hi.hand
    rw [hw] at hh
    obtain ⟨hf,hclear,htext⟩ := hh
    split at hs
    · cases hs
      exact ⟨hi.thread,hi.queue,holds_unsent hf rfl,hi.sent⟩
    · next conn hc =>
      split at hs <;> cases hs
      · refine ⟨hi.thread,hi.queue,trivial,fun l hl => ?_⟩
        rcases List.mem_append.mp hl with hl | hl
        · exact hi.sent l hl
        · obtain ⟨horigin,hopened⟩ := hclear conn hc
          rw [List.mem_singleton.mp hl]
          exact ⟨horigin,_,hopened,htext⟩
      · exact ⟨hi.thread,hi.queue,holds_unsent hf rfl,hi.sent⟩
  · cases hs

/-- Every line that is written answers the connection it is written to. -/
theorem submits_where_issued (opt : Options) (h : Hashes) (s : Settings) (extranonce : Bool)
    (m : Desk) (hr : Reach (Desk.step opt h) InTouch (start s extranonce) m) :
    ∀ l ∈ m.sent, Sent.Addressed m.thread l :=
  (hr.invariant (I := InOrder) (.start s extranonce) (fun _ _ _ hi ho hs => hi.step ho hs)).sent

def share : Action := .finds 0 ⟨[],ascii "a",[]⟩ 7 [] 4

def out : List Action := [.pops,.checks,.builds,.sends true]

theorem first_share_where_issued :
    ∃ m, Reach (Desk.step patient plainHashes) InTouch (start bitcoin false) m ∧
      m.sent.length = 1 ∧ ∀ l ∈ m.sent, Sent.Addressed m.thread l := by
  obtain ⟨m,hr,hl⟩ := reach_of_any (Desk.step patient plainHashes) InTouch (start bitcoin false)
    (firstJob.map .thread ++ share :: out) (fun m => m.sent.length = 1) (by decide)
  exact ⟨m,hr,hl,submits_where_issued patient plainHashes bitcoin false m hr⟩

def resets : List Event :=
  [.turns false,.looks false,.asks none,.silent,.settles false,.turns false] ++ dials

/-- A share that waits through a reset passes the check while the next connection
has no session of its own, and goes out on it. -/
theorem old_share_on_new_connection :
    ¬ ∀ (opt : Options) (h : Hashes) (s : Settings) (extranonce : Bool) (m : Desk),
      Reach (Desk.step opt h) free (start s extranonce) m →
        ∀ l ∈ m.sent, Sent.Addressed m.thread l := by
  intro hall
  obtain ⟨m,hr,hp⟩ := reach_of_any (Desk.step patient plainHashes) free (start bitcoin false)
    (firstJob.map .thread ++ share :: resets.map .thread ++ out)
    (fun m => m.sent.map (fun l => (l.conn,l.share.issued.origin)) = [(1,some 0)]) (by decide)
  obtain ⟨l,hm,he⟩ : ∃ l ∈ m.sent, (l.conn,l.share.issued.origin) = (1,some 0) := by
    rw [← List.mem_map,hp]
    exact List.mem_singleton_self _
  obtain ⟨hc,ho⟩ := Prod.mk.inj he
  have ha := (hall patient plainHashes bitcoin false m hr l hm).1
  rw [hc] at ha
  cases ho.symm.trans ha

end Desk

end VkMiner.Session
