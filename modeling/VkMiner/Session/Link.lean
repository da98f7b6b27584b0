import VkMiner.Control.Steady
import VkMiner.Session.Thread
set_option autoImplicit false

/-! The stratum thread beside the barrier: which address it keeps, when it connects
to it, and which connection acknowledges a pool change. -/

namespace VkMiner.Session
open Stratum Runs

/-- The parts that do not move. `spec` is what the switch hook makes of an algorithm. -/
structure Setup where
  control : Control.Options
  stratum : Options
  hashes : Hashes
  spec : CStr → Dialect × Nat

/-- A connection: the address and the run state it was opened under, the address that the
last applied change named, and whether the pool had moved the miner since. -/
structure Conn where
  url : CStr
  applied : Option CStr
  redirected : Bool
  run : Control.ControlState
  subscribed : Bool
  authorized : Bool
  deriving DecidableEq

/-- It goes to the address of the last applied change, unless the pool has sent the miner
elsewhere since, and was not opened while the miner was stopped. -/
def Conn.Allowed (c : Conn) : Prop :=
  (c.redirected = true ∨ ∀ u ∈ c.applied, c.url = u) ∧ c.run ≠ .stopped

instance (c : Conn) : Decidable c.Allowed := inferInstanceAs (Decidable (_ ∧ _))

def Conn.Up (c : Conn) (url : CStr) : Prop :=
  c.url = url ∧ c.subscribed = true ∧ c.authorized = true

structure Ack where
  mutation : Nat
  conn : Conn
  deriving DecidableEq

/-- `url` is the thread's own copy. What follows it is history: the last applied change,
whether a client.reconnect was obeyed since, whether the hold was put on since the thread
looked at it, the connections and the acknowledgements, the newest first. -/
structure Link where
  machine : Control.Machine
  thread : Thread
  url : CStr
  applied : Option CStr
  redirected : Bool
  overtaken : Bool
  opened : List Conn
  acks : List Ack

def schemeOf : CStr → CStr
  | 58 :: 47 :: 47 :: _ => [58,47,47]
  | b :: rest => b :: schemeOf rest
  | [] => []

def decimalInt (n : Int) : CStr := if n < 0 then 45 :: decimal n.natAbs else decimal n.natAbs

def reconnectPort (params : Option Json) : Int :=
  match jsonStringValue (jsonArrayGet params 1) with
  | some s => atoi s
  | none => toInt32 (jsonIntegerValue (jsonArrayGet params 1))

def reconnectUrl (url : CStr) (params : Option Json) : CStr :=
  schemeOf (url.take 15) ++ (jsonStringValue (jsonArrayGet params 0)).getD [] ++ ascii ":" ++
    decimalInt (reconnectPort params)

def Pc.applies : Pc → Bool
  | .asking _ | .retargeting _ _ => true
  | _ => false

def Pc.looked : Pc → Bool
  | .asking .dial | .retargeting .dial _ | .connecting => true
  | _ => false

def Pc.rests : Pc → Bool
  | .top | .dialing | .priming | .waiting | .bottom | .gone => true
  | _ => false

def Pc.shakes : Pc → Bool
  | .subscribing _ | .authorizing | .extra | .established => true
  | _ => false

def Conn.Reached (c : Conn) : Pc → Prop
  | .authorizing => c.subscribed = true
  | .extra | .established => c.subscribed = true ∧ c.authorized = true
  | _ => True

namespace Link

inductive Event where
  | barrier (e : Control.Event)
  | finds
  | takes
  | refuses (why : CStr)
  | moves
  | writes
  | readsHold
  | acks
  | thread (e : Session.Event)

def change (s : Setup) (p : Control.PoolRequest) : Change where
  algo := if p.algo.isEmpty then none else some (s.spec p.algo)
  user := if p.user.isEmpty then none else some p.user

def tied (m : Control.Machine) : Session.Event → Bool
  | .turns holds | .looks holds => holds == m.holdConnection
  | .connects _ inFlight | .subscribed _ inFlight | .authorized _ _ _ inFlight =>
    inFlight == m.inFlight
  | .interrupted => m.pool.pending || m.holdConnection
  | .asks _ | .retargets => false
  -- a read may fail whatever the barrier says, so `silent` is not tied
  | _ => true

def mark (l : Link) (f : Conn → Conn) : Link :=
  match l.opened with
  | c :: older => { l with opened := f c :: older }
  | [] => l

/-- A line that was dealt with, and had the connection closed if it is a client.reconnect. -/
def hears (s : Setup) (l l' : Link) (line : Line) (heap : Nat → UInt8) (sends : Bool) : Link :=
  if (stratumHandleMethod s.stratum l.thread.settings heap sends l.thread.ctx line).closes then
    { l' with
      url := reconnectUrl l.url (jsonObjectGet line (ascii "params"))
      redirected := true }
  else l'

def acknowledge (l : Link) : Link :=
  match l.opened with
  | c :: _ =>
    if l.machine.waits then { l with acks := ⟨l.machine.current,c⟩ :: l.acks } else l
  | [] => l

/-- What a step of the thread, from `l` to the thread `t`, does to its copy of the url
and to the history. -/
def effect (s : Setup) (l : Link) (t : Thread) : Session.Event → Link
  | .turns holds =>
    if !holds && l.thread.needReset then { l with thread := t, url := l.machine.profile.url }
    else { l with thread := t }
  | .looks _ => { l with thread := t, overtaken := false }
  | .retargets =>
    match l.thread.pc with
    | .retargeting .held _ | .retargeting .dial _ =>
      { l with thread := t, url := l.machine.profile.url }
    -- the live site leaves the copy to the reset at the top
    | _ => { l with thread := t }
  | .connects ok _ =>
    if ok then
      { l with
        thread := t
        opened := ⟨l.url,l.applied,l.redirected,l.machine.state,false,false⟩ :: l.opened }
    else { l with thread := t }
  | .subscribed _ _ =>
    if t.pc = .authorizing then
      ({ l with thread := t } : Link).mark (fun c => { c with subscribed := true })
    else { l with thread := t }
  | .authorized received heap sends _ =>
    match received with
    | none => { l with thread := t }
    | some line =>
      if t.pc = .extra ∨ t.pc = .established then
        ({ l with thread := t } : Link).mark (fun c => { c with authorized := true })
      else l.hears s { l with thread := t } line heap sends
  | .extraAnswered line heap sends =>
    if jsonIntegerValue (jsonObjectGet line (ascii "id")) = 3 then { l with thread := t }
    else l.hears s { l with thread := t } line heap sends
  | .received line heap sends => l.hears s { l with thread := t } line heap sends
  | .establishes => ({ l with thread := t } : Link).acknowledge
  | _ => { l with thread := t }

def turn (s : Setup) (l : Link) (e : Session.Event) : Option Link :=
  (l.thread.step s.stratum s.hashes e).map (fun t => l.effect s t e)

def moved (l : Link) (m : Control.Machine) : Link :=
  { l with
    machine := m
    overtaken := l.overtaken || m.holdConnection && !l.machine.holdConnection }

def run (s : Setup) (l : Link) (e : Control.Event) : Option Link :=
  (Control.step s.control l.machine e).map l.moved

/-- A step of any other thread under the lock, a step of `control_pool_apply`, or a step of
the stratum thread's loop. -/
def step (s : Setup) (l : Link) : Event → Option Link
  | .barrier e => if Control.outside e then l.run s e else none
  | .finds =>
    match l.machine.apply with
    | .idle => if l.machine.pool.pending then none else l.turn s (.asks none)
    | _ => none
  | .takes =>
    match l.thread.pc with
    | .asking _ => l.run s .takes
    | _ => none
  | .refuses why => (l.run s (.refuses why)).bind (fun l => l.turn s (.asks none))
  | .moves =>
    match l.machine.apply with
    | .taken p _ _ => (l.run s .moves).bind (fun l => l.turn s (.asks (some (change s p))))
    | _ => none
  | .writes =>
    match l.machine.apply with
    | .moved p _ =>
      (l.run s .writes).map (fun l => { l with applied := some p.url, redirected := false })
    | _ => none
  | .readsHold =>
    (l.run s .readsHold).bind (fun l =>
      match l.machine.apply with
      | .idle => l.turn s .retargets
      | _ => some l)
  | .acks => (l.run s .acks).bind (fun l => l.turn s .retargets)
  | .thread .establishes => (l.turn s .establishes).bind (fun l => l.run s .connected)
  | .thread e => if tied l.machine e then l.turn s e else none

def start (s : Setup) (n : Nat) (p : Control.Profile) (hook extranonce : Bool) : Link where
  machine := .start n p hook
  thread := .start ⟨(s.spec p.algo).1,(s.spec p.algo).2,p.user⟩ extranonce
  url := p.url
  applied := none
  redirected := false
  overtaken := false
  opened := []
  acks := []

/-- A reset that still has an applied change to bring to the thread's copy. -/
def carries (l : Link) : Bool :=
  l.thread.needReset && !l.redirected && l.url != l.machine.profile.url

def Lives (_ : Link) : Event → Prop
  | .barrier e => e ≠ .releaseAll
  | _ => True

instance (l : Link) (e : Event) : Decidable (Lives l e) :=
  match e with
  | .barrier _ => inferInstanceAs (Decidable (_ ≠ _))
  | .finds | .takes | .refuses _ | .moves | .writes | .readsHold | .acks | .thread _ =>
    isTrue trivial

/-- No stop clears a reset that carries a change, nor comes between the look at the hold
and the connection; and no change is acknowledged where a client.reconnect has led. -/
def Clear (l : Link) : Event → Prop
  | .barrier e => e ≠ .releaseAll
  | .thread (.turns holds) => holds = true → l.carries = false
  | .thread (.connects ok _) => ok = true → l.overtaken = false
  | .thread .establishes => l.machine.waits = true → ∀ c ∈ l.opened.head?, c.redirected = false
  | _ => True

instance (l : Link) (e : Event) : Decidable (Clear l e) :=
  match e with
  | .barrier _ => inferInstanceAs (Decidable (_ ≠ _))
  | .thread (.turns _) => inferInstanceAs (Decidable (_ → _))
  | .thread (.connects _ _) => inferInstanceAs (Decidable (_ → _))
  | .thread .establishes => inferInstanceAs (Decidable (_ → ∀ c ∈ l.opened.head?, _))
  | .finds | .takes | .refuses _ | .moves | .writes | .readsHold | .acks => isTrue trivial
  | .thread (.looks _) | .thread (.asks _) | .thread .retargets | .thread (.subscribed _ _)
  | .thread (.authorized _ _ _ _) | .thread (.extraLost _) | .thread (.extraAnswered _ _ _)
  | .thread .primes | .thread .interrupted | .thread .silent | .thread (.received _ _ _)
  | .thread (.settles _) => isTrue trivial

def Acknowledged (acks : List Ack) (k : Nat) (P : Control.Mutation) : Prop :=
  ∃ a ∈ acks, a.mutation = k ∧ a.conn.Up P.target.profile.url

structure WhereTold (l : Link) : Prop where
  opened : ∀ c ∈ l.opened, c.Allowed
  answered : ∀ x ∈ l.machine.endings, ∀ P, l.machine.posted[x.mutation]? = some P →
    P.kind = .pool → x.outcome = .landed true →
      x.triple.run = .running ∨ x.triple.run = .paused → Acknowledged l.acks x.mutation P

def Paired (pc : Pc) (a : Control.Apply) : Prop :=
  match a with
  | .idle => ∀ site user, pc ≠ .retargeting site user
  | .taken _ _ _ => ∃ site, pc = .asking site
  | .moved _ _ | .written _ | .acking _ => ∃ site user, pc = .retargeting site user

/-- The copy of the url is to be brought up to date before the thread connects. -/
def Carried (l : Link) : Prop :=
  match l.thread.pc with
  | .top => l.thread.needReset = true
  | .retargeting _ _ =>
    match l.machine.apply with
    | .written _ | .acking _ => True
    | _ => False
  | _ => False

def Copied (l : Link) : Prop := l.redirected = true ∨ l.url = l.machine.profile.url

/-- In a handshake, the connection opened last has come as far as the thread has. -/
def Shaken (l : Link) : Prop :=
  l.thread.pc.shakes = true → ∃ c older, l.opened = c :: older ∧
    (c.redirected = true ∨ c.url = l.machine.profile.url) ∧ c.Reached l.thread.pc

structure Linked (l : Link) : Prop where
  ready : Control.Ready (Acknowledged l.acks) l.machine
  paired : Paired l.thread.pc l.machine.apply
  applied : ∀ u ∈ l.applied, l.machine.profile.url = u
  copied : l.Copied ∨ l.Carried
  window : l.thread.pc.looked = true → l.machine.holdConnection = true → l.overtaken = true
  shaken : l.Shaken
  opened : ∀ c ∈ l.opened, c.Allowed

variable {s : Setup} {l l' : Link} {t : Thread} {pc : Pc} {m : Control.Machine}

theorem Paired.idle {a : Control.Apply} (h : Paired pc a) (hb : pc.applies = false) :
    a = .idle := by
  cases a with
  | idle => rfl
  | taken p hook k =>
    obtain ⟨site,rfl⟩ := h
    cases hb
  | moved | written | acking =>
    obtain ⟨site,user,rfl⟩ := h
    cases hb

theorem Paired.taken {p : Control.PoolRequest} {hook : Bool} {k : Nat}
    (h : Paired pc (.taken p hook k)) : ∃ site, pc = .asking site := h

theorem Paired.moved {p : Control.PoolRequest} {k : Nat} (h : Paired pc (.moved p k)) :
    ∃ site user, pc = .retargeting site user := h

theorem Paired.written {k : Nat} (h : Paired pc (.written k)) :
    ∃ site user, pc = .retargeting site user := h

theorem paired_idle {a : Control.Apply} (ha : a = .idle)
    (hb : ∀ site user, pc ≠ .retargeting site user) : Paired pc a := by
  rw [ha]
  exact hb

theorem paired_away {a : Control.Apply} (ha : a = .idle) (hb : pc.applies = false) :
    Paired pc a := by
  refine paired_idle ha (fun site user he => ?_)
  rw [he] at hb
  cases hb

theorem rests_away (hb : pc.rests = true) : pc.applies = false ∧ pc.looked = false := by
  cases pc with
  | top | dialing | priming | waiting | bottom | gone => exact ⟨rfl,rfl⟩
  | _ => cases hb

theorem shakes_away (hb : pc.shakes = true) : pc.applies = false ∧ pc.looked = false := by
  cases pc with
  | subscribing | authorizing | extra | established => exact ⟨rfl,rfl⟩
  | _ => cases hb

theorem Shaken.same (h : l.Shaken) (ht : l'.thread.pc = l.thread.pc) (ho : l'.opened = l.opened)
    (hu : l'.machine.profile.url = l.machine.profile.url) : l'.Shaken := by
  unfold Shaken at h ⊢
  rw [ht,ho,hu]
  exact h

theorem shaken_rests (hb : l.thread.pc.rests = true) : l.Shaken := by
  intro hs
  cases hpc : l.thread.pc <;> simp_all [Pc.rests,Pc.shakes]

/-- Away from the top and from `control_pool_apply` there is nothing to catch up on. -/
theorem Linked.settled (h : l.Linked) (hpc : l.thread.pc = pc) (hb : pc.applies = false)
    (hn : pc ≠ .top) : l.machine.apply = .idle ∧ l.Copied := by
  refine ⟨h.paired.idle (hpc ▸ hb),h.copied.resolve_right (fun hc => ?_)⟩
  unfold Carried at hc
  rw [hpc] at hc
  cases pc with
  | top => exact hn rfl
  | retargeting => cases hb
  | _ => exact hc

theorem Linked.goes (h : l.Linked) (hp : Paired t.pc l.machine.apply)
    (hc : l.Copied ∨ Carried { l with thread := t })
    (hw : t.pc.looked = true → l.machine.holdConnection = true → l.overtaken = true)
    (hs : Shaken { l with thread := t }) : Linked { l with thread := t } :=
  ⟨h.ready,hp,h.applied,hc,hw,hs,h.opened⟩

theorem Linked.rests (h : l.Linked) (hi : l.machine.apply = .idle) (hc : l.Copied)
    (ht : t.pc.rests = true) : Linked { l with thread := t } := by
  obtain ⟨ha,hl⟩ := rests_away ht
  refine h.goes (paired_away hi ha) (.inl hc) ?_ (shaken_rests ht)
  intro hl'
  simp [hl] at hl'

theorem Linked.window_moved (h : l.Linked) (hl : l.thread.pc.looked = true)
    (hh : m.holdConnection = true) : (l.moved m).overtaken = true := by
  cases ho : l.machine.holdConnection with
  | true => simp [Link.moved,h.window hl ho]
  | false => simp [Link.moved,ho,hh]

theorem Linked.moved (h : l.Linked) (hr : Control.Ready (Acknowledged l.acks) m)
    (hu : m.profile.url = l.machine.profile.url) (hp : Paired l.thread.pc m.apply)
    (hc : l.Carried → (l.moved m).Carried) : (l.moved m).Linked := by
  refine ⟨hr,hp,?_,?_,?_,h.shaken.same rfl rfl hu,h.opened⟩
  · exact fun u hm => hu.trans (h.applied u hm)
  · rcases h.copied with hk | hk
    · exact .inl (hk.imp id (fun he => he.trans hu.symm))
    · exact .inr (hc hk)
  · exact fun hl hh => h.window_moved hl hh

theorem run_some {e : Control.Event} (h : l.run s e = some l') :
    ∃ m, Control.step s.control l.machine e = some m ∧ l' = l.moved m := by
  obtain ⟨m,hm,rfl⟩ := Option.map_eq_some_iff.mp h
  exact ⟨m,hm,rfl⟩

theorem turn_some {e : Session.Event} (h : l.turn s e = some l') :
    ∃ t, l.thread.step s.stratum s.hashes e = some t ∧ l' = l.effect s t e := by
  obtain ⟨t,ht,rfl⟩ := Option.map_eq_some_iff.mp h
  exact ⟨t,ht,rfl⟩

theorem asks_some {c : Option Change} (h : l.thread.step s.stratum s.hashes (.asks c) = some t) :
    ∃ site, l.thread.pc = .asking site ∧
      match c with
      | none => t = l.thread.resume site false
      | some c => t.pc = .retargeting site c.user := by
  cases hpc : l.thread.pc with
  | asking site =>
    cases c <;> simp only [Thread.step,hpc,Option.some.injEq] at h <;> cases h <;>
      exact ⟨site,rfl,rfl⟩
  | _ => simp [Thread.step,hpc] at h

theorem retargets_some (h : l.thread.step s.stratum s.hashes .retargets = some t) :
    ∃ site user, l.thread.pc = .retargeting site user ∧
      t = Thread.resume { l.thread with
        settings := { l.thread.settings with user := user.getD l.thread.settings.user } } site
          true := by
  cases hpc : l.thread.pc with
  | retargeting site user =>
    simp only [Thread.step,hpc,Option.some.injEq] at h
    exact ⟨site,user,rfl,h.symm⟩
  | _ => simp [Thread.step,hpc] at h

theorem Linked.barrier (h : l.Linked) {e : Control.Event} (ho : Control.outside e = true)
    (hr : e ≠ .releaseAll) (hs : l.run s e = some l') : l'.Linked := by
  obtain ⟨m,hm,rfl⟩ := run_some hs
  obtain ⟨ha,hp⟩ := Control.outside_same ho hm
  have hready := h.ready.step hr (fun he => by simp [he,Control.outside] at ho)
    (fun he => by simp [he,Control.outside] at ho) hm
  refine h.moved hready (by rw [hp]) (by rw [ha]; exact h.paired) ?_
  unfold Carried
  simp only [Link.moved,ha]
  exact id

theorem Linked.unasked (h : l.Linked) (hi : l.machine.apply = .idle)
    (hs : l.turn s (.asks none) = some l') : l'.Linked := by
  obtain ⟨t,ht,rfl⟩ := turn_some hs
  obtain ⟨site,hpc,he⟩ := asks_some ht
  simp only at he
  subst he
  have hc : l.Copied := h.copied.resolve_right (by simp [Carried,hpc])
  cases site with
  | held => exact h.rests hi hc rfl
  | live => exact h.rests hi hc rfl
  | dial =>
    refine h.goes (paired_away hi rfl) (.inl hc) ?_ ?_
    · exact fun _ hh => h.window (by rw [hpc]; rfl) hh
    · intro hn
      cases hn

theorem Linked.takes (h : l.Linked) {site : Site} (hpc : l.thread.pc = .asking site)
    (hs : l.run s .takes = some l') : l'.Linked := by
  obtain ⟨m,hm,rfl⟩ := run_some hs
  have hr := h.ready.step (by decide) (by decide) (by decide) hm
  simp only [Control.step] at hm
  split at hm
  · split at hm
    · cases hm
      exact h.moved hr rfl ⟨site,hpc⟩ (by simp [Carried,hpc])
    · cases hm
  · cases hm

theorem Linked.refuses (h : l.Linked) {why : CStr}
    (hs : (l.run s (.refuses why)).bind (fun l => l.turn s (.asks none)) = some l') :
    l'.Linked := by
  obtain ⟨l₁,hr,ht⟩ := Option.bind_eq_some_iff.mp hs
  obtain ⟨m,hm,rfl⟩ := run_some hr
  have hready := h.ready.step (by simp) (by simp) (by simp) hm
  simp only [Control.step] at hm
  split at hm
  · next p hook k ha =>
    split at hm
    · cases hm
    · cases hm
      obtain ⟨site,hpc⟩ := (ha ▸ h.paired).taken
      have hi : Paired l.thread.pc .idle := fun _ _ hn => by
        rw [hpc] at hn
        cases hn
      exact (h.moved hready rfl hi (by simp [Carried,hpc])).unasked rfl ht
  · cases hm

theorem withAlgo_url (p : Control.Profile) (r : Control.PoolRequest) :
    (p.withAlgo r).url = p.url := by
  unfold Control.Profile.withAlgo
  split <;> rfl

theorem Linked.moves (h : l.Linked) {c : Change}
    (hs : (l.run s .moves).bind (fun l => l.turn s (.asks (some c))) = some l') : l'.Linked := by
  obtain ⟨l₁,hr,ht⟩ := Option.bind_eq_some_iff.mp hs
  obtain ⟨m,hm,rfl⟩ := run_some hr
  have hready := h.ready.step (by decide) (by decide) (by decide) hm
  obtain ⟨t,hstep,rfl⟩ := turn_some ht
  obtain ⟨site,hpc,htpc⟩ := asks_some hstep
  have hpc' : l.thread.pc = .asking site := hpc
  have hc : l.Copied := h.copied.resolve_right (by simp [Carried,hpc'])
  simp only [Control.step] at hm
  split at hm
  · next p hook k ha =>
    split at hm
    · cases hm
      have hu := withAlgo_url l.machine.profile p
      refine ⟨hready,⟨site,c.user,htpc⟩,?_,.inl (hc.imp id (fun he => he.trans hu.symm)),?_,?_,
        h.opened⟩
      · exact fun u hm => hu.trans (h.applied u hm)
      · intro hl hh
        refine h.window_moved ?_ hh
        rw [hpc']
        cases site with
        | dial => rfl
        | held | live => simp [Link.effect,htpc,Pc.looked] at hl
      · intro hn
        simp [Link.effect,htpc,Pc.shakes] at hn
    · cases hm
  · cases hm

theorem Linked.writes (h : l.Linked) {p : Control.PoolRequest} {k : Nat}
    (ha : l.machine.apply = .moved p k)
    (hs : (l.run s .writes).map (fun l => { l with applied := some p.url, redirected := false }) =
      some l') : l'.Linked := by
  obtain ⟨l₁,hr,rfl⟩ := Option.map_eq_some_iff.mp hs
  obtain ⟨m,hm,rfl⟩ := run_some hr
  have hready := h.ready.step (by decide) (by decide) (by decide) hm
  simp only [Control.step,ha,Option.some.injEq] at hm
  subst hm
  obtain ⟨site,user,hpc⟩ := (ha ▸ h.paired).moved
  refine ⟨hready,⟨site,user,hpc⟩,?_,?_,?_,?_,h.opened⟩
  · intro u hu
    cases hu
    rfl
  · exact .inr (by simp [Carried,Link.moved,hpc])
  · exact fun hl hh => h.window_moved hl hh
  · intro hn
    simp [Link.moved,hpc,Pc.shakes] at hn

theorem retargeted (hr : Control.Ready (Acknowledged l.acks) l.machine)
    (hi : l.machine.apply = .idle) (ha : ∀ u ∈ l.applied, l.machine.profile.url = u)
    (hw : l.thread.pc.looked = true → l.machine.holdConnection = true → l.overtaken = true)
    (ho : ∀ c ∈ l.opened, c.Allowed) (hs : l.turn s .retargets = some l') : l'.Linked := by
  obtain ⟨t,ht,rfl⟩ := turn_some hs
  obtain ⟨site,user,hpc,rfl⟩ := retargets_some ht
  cases site with
  | held =>
    simp only [effect,hpc,Thread.resume]
    exact ⟨hr,paired_away hi rfl,ha,.inl (.inr rfl),
      fun hl => (by cases hl),fun hn => (by cases hn),ho⟩
  | dial =>
    simp only [effect,hpc,Thread.resume]
    exact ⟨hr,paired_away hi rfl,ha,.inl (.inr rfl),
      fun _ hh => hw (by rw [hpc]; rfl) hh,fun hn => (by cases hn),ho⟩
  | live =>
    simp only [effect,hpc,Thread.resume,if_true]
    exact ⟨hr,paired_away hi rfl,ha,.inr rfl,
      fun hl => (by cases hl),fun hn => (by cases hn),ho⟩

theorem Linked.readsHold (h : l.Linked)
    (hs : (l.run s .readsHold).bind (fun l =>
      match l.machine.apply with
      | .idle => l.turn s .retargets
      | _ => some l) = some l') : l'.Linked := by
  obtain ⟨l₁,hr,ht⟩ := Option.bind_eq_some_iff.mp hs
  obtain ⟨m,hm,rfl⟩ := run_some hr
  have hready := h.ready.step (by decide) (by decide) (by decide) hm
  simp only [Control.step] at hm
  split at hm
  · next k ha =>
    have hm := Option.some.inj hm
    have hidle : m.apply = if l.machine.holdConnection then .acking k else .idle := by rw [← hm]
    have hu : m.profile = l.machine.profile := by rw [← hm]
    have happ : ∀ u ∈ l.applied, m.profile.url = u := fun u hmem => hu ▸ h.applied u hmem
    split at ht
    · next hi => exact retargeted hready hi happ (fun hl hh => h.window_moved hl hh) h.opened ht
    · next hn =>
      cases ht
      obtain ⟨site,user,hpc⟩ := (ha ▸ h.paired).written
      have hack : m.apply = .acking k := by
        rw [hidle]
        refine if_pos (Decidable.byContradiction fun hh => hn ?_)
        exact hidle.trans (if_neg hh)
      refine ⟨hready,?_,happ,.inr ?_,fun hl hh => h.window_moved hl hh,?_,h.opened⟩
      · show Paired l.thread.pc m.apply
        rw [hack]
        exact ⟨site,user,hpc⟩
      · simp [Carried,Link.moved,hpc,hack]
      · exact fun hn => by simp [Link.moved,hpc,Pc.shakes] at hn
  · cases hm

theorem Linked.acks (h : l.Linked)
    (hs : (l.run s .acks).bind (fun l => l.turn s .retargets) = some l') : l'.Linked := by
  obtain ⟨l₁,hr,ht⟩ := Option.bind_eq_some_iff.mp hs
  obtain ⟨m,hm,rfl⟩ := run_some hr
  simp only [Control.step] at hm
  split at hm
  · next k ha =>
    cases hm
    have hreturns : Control.fine s.control l.machine .returns =
        some { l.machine with apply := .idle } := by simp [Control.fine,ha]
    have hback := h.ready.fine (show Control.Keeps l.machine .returns from trivial) (by simp) hreturns
    have hsame := Control.connected_same { l.machine with apply := .idle }
    refine retargeted (hback.connected ?_) hsame.1 ?_ (fun hl hh => h.window_moved hl hh) h.opened ht
    · -- it was told to hold the connection: this change stops the miner
      intro hw hn
      obtain ⟨hp,hq,-⟩ := Control.waits_iff.mp hw
      have htarget := h.ready.steady.targets hp hq
      simp only [Control.Targets,ha] at htarget
      exact absurd htarget.2 hn
    · intro u hu
      have hp : (l.moved (Control.Machine.controlPoolConnected
        { l.machine with apply := .idle })).machine.profile = l.machine.profile := hsame.2
      rw [hp]
      exact h.applied u hu
  · cases hm

theorem Linked.hears (h : l'.Linked) (l : Link) (line : Line) (heap : Nat → UInt8)
    (sends : Bool) : (l.hears s l' line heap sends).Linked := by
  unfold Link.hears
  split
  · exact ⟨h.ready,h.paired,h.applied,.inl (.inl rfl),h.window,h.shaken,h.opened⟩
  · exact h

theorem Linked.shakes (h : l.Linked) (hi : l.machine.apply = .idle) (hc : l.Copied)
    (hb : l.thread.pc.shakes = true) (hn : t.pc.shakes = true)
    (hr : ∀ c : Conn, c.Reached l.thread.pc → c.Reached t.pc) : Linked { l with thread := t } := by
  have hpc := shakes_away hn
  obtain ⟨c,older,ho,hk,hp⟩ := h.shaken hb
  refine h.goes (paired_away hi hpc.1) (.inl hc) ?_ (fun _ => ⟨c,older,ho,hk,hr c hp⟩)
  intro hl
  simp [hpc.2] at hl

theorem Linked.marks (h : l.Linked) (hi : l.machine.apply = .idle) (hc : l.Copied)
    (hb : l.thread.pc.shakes = true) (hn : t.pc.shakes = true) {f : Conn → Conn}
    (hf : ∀ c : Conn, (f c).url = c.url ∧ (f c).applied = c.applied ∧
      (f c).redirected = c.redirected ∧ (f c).run = c.run)
    (hr : ∀ c : Conn, c.Reached l.thread.pc → (f c).Reached t.pc) :
    (mark { l with thread := t } f).Linked := by
  have hpc := shakes_away hn
  obtain ⟨c,older,ho,hk,hp⟩ := h.shaken hb
  obtain ⟨hu,ha,hd,hrun⟩ := hf c
  simp only [mark,ho]
  refine ⟨h.ready,paired_away hi hpc.1,h.applied,.inl hc,?_,?_,?_⟩
  · intro hl
    simp [hpc.2] at hl
  · exact fun _ => ⟨f c,older,rfl,by rw [hd,hu]; exact hk,hr c hp⟩
  · intro d hm
    rcases List.mem_cons.mp hm with rfl | hm
    · have hall := h.opened c (by simp [ho])
      unfold Conn.Allowed at hall ⊢
      rw [hu,ha,hd,hrun]
      exact hall
    · exact h.opened d (by simp [ho,hm])

theorem Linked.acknowledge (h : l.Linked) : l.acknowledge.Linked := by
  unfold Link.acknowledge
  split
  · split
    · refine ⟨⟨h.ready.sound,h.ready.steady,h.ready.vouched.mono ?_⟩,h.paired,h.applied,h.copied,
        h.window,h.shaken,h.opened⟩
      rintro k P ⟨a,ha,hk⟩
      exact ⟨a,List.mem_cons_of_mem _ ha,hk⟩
    · exact h
  · exact h

theorem fail_rests (opt : Options) (t : Thread) (inFlight : Bool) :
    (t.fail opt inFlight).pc.rests = true := by
  unfold Thread.fail
  cases opt.retries.any (fun n => n ≤ t.failures) && !inFlight <;> rfl

theorem Linked.connects (h : l.Linked) {ok inFlight : Bool} (hpc : l.thread.pc = .connecting)
    (hc : Clear l (.thread (.connects ok inFlight)))
    (hs : l.thread.step s.stratum s.hashes (.connects ok inFlight) = some t) :
    (l.effect s t (.connects ok inFlight)).Linked := by
  obtain ⟨hi,hk⟩ := h.settled hpc rfl nofun
  simp only [Thread.step,hpc] at hs
  cases ok with
  | false =>
    simp only [Bool.false_eq_true,if_false,Option.some.injEq] at hs
    subst hs
    exact h.rests hi hk (fail_rests _ _ _)
  | true =>
    simp only [if_true,Option.some.injEq] at hs
    subst hs
    simp only [effect,if_true]
    refine ⟨h.ready,paired_away hi rfl,h.applied,.inl hk,fun hl => (by cases hl),?_,?_⟩
    · exact fun _ => ⟨_,_,rfl,hk,trivial⟩
    · intro c hm
      rcases List.mem_cons.mp hm with rfl | hm
      · refine ⟨hk.imp id (fun he u hu => he.trans (h.applied u hu)),fun hst => ?_⟩
        have ho := h.window (by rw [hpc]; rfl) (h.ready.steady.stopped hst)
        exact absurd (hc rfl) (by simp [ho])
      · exact h.opened c hm

theorem Linked.turns (h : l.Linked) {holds : Bool} (hpc : l.thread.pc = .top)
    (hc : Clear l (.thread (.turns holds)))
    (hs : l.thread.step s.stratum s.hashes (.turns holds) = some t) :
    (l.effect s t (.turns holds)).Linked := by
  have hi := h.paired.idle (by rw [hpc]; rfl)
  simp only [Thread.step,hpc] at hs
  cases holds with
  | true =>
    simp only [if_true,Option.some.injEq] at hs
    subst hs
    have hk : l.Copied := by
      rcases h.copied with hk | hk
      · exact hk
      · have hr : l.thread.needReset = true := by simpa [Carried,hpc] using hk
        have hno := hc rfl
        simp only [carries,hr,Bool.true_and,Bool.and_eq_false_iff,Bool.not_eq_false',
          bne_eq_false_iff_eq] at hno
        exact hno
    exact h.goes (paired_idle hi nofun) (.inl hk) (fun hl => by cases hl) (fun hn => by cases hn)
  | false =>
    cases hr : l.thread.needReset with
    | true =>
      simp only [hr,Bool.false_eq_true,if_false,if_true,Option.some.injEq] at hs
      subst hs
      simp only [effect,hr,Bool.not_false,Bool.and_self,if_true]
      exact ⟨h.ready,paired_away hi rfl,h.applied,.inl (.inr rfl),fun hl => (by cases hl),
        fun hn => (by cases hn),h.opened⟩
    | false =>
      simp only [hr,Bool.false_eq_true,if_false,Option.some.injEq] at hs
      subst hs
      simp only [effect,hr,Bool.not_false,Bool.and_false,if_false,Bool.false_eq_true]
      have hk : l.Copied := h.copied.resolve_right (by simp [Carried,hpc,hr])
      exact h.rests hi hk rfl

theorem Linked.looks (h : l.Linked) {holds : Bool} (hpc : l.thread.pc = .dialing)
    (ht : holds = l.machine.holdConnection)
    (hs : l.thread.step s.stratum s.hashes (.looks holds) = some t) :
    (l.effect s t (.looks holds)).Linked := by
  obtain ⟨hi,hk⟩ := h.settled hpc rfl nofun
  simp only [Thread.step,hpc] at hs
  split at hs
  · cases hs
    exact ⟨h.ready,paired_idle hi nofun,h.applied,.inl hk,fun hl => (by cases hl),
      fun hn => (by cases hn),h.opened⟩
  · next hh =>
    cases hs
    refine ⟨h.ready,paired_idle hi nofun,h.applied,.inl hk,fun _ ho => ?_,fun hn => (by cases hn),
      h.opened⟩
    have ho' : l.machine.holdConnection = true := ho
    simp [ht,ho'] at hh

theorem Linked.subscribed (h : l.Linked) {retry inFlight : Bool} {received : Option Line}
    (hpc : l.thread.pc = .subscribing retry)
    (hs : l.thread.step s.stratum s.hashes (.subscribed received inFlight) = some t) :
    (l.effect s t (.subscribed received inFlight)).Linked := by
  obtain ⟨hi,hk⟩ := h.settled hpc rfl nofun
  simp only [Thread.step,hpc,Option.some.injEq] at hs
  simp only [effect]
  by_cases ha : t.pc = .authorizing
  · rw [if_pos ha]
    refine h.marks hi hk (by rw [hpc]; rfl) (by rw [ha]; rfl) (fun c => ⟨rfl,rfl,rfl,rfl⟩) ?_
    intro c _
    rw [ha]
    exact rfl
  · rw [if_neg ha]
    cases received with
    | none =>
      subst hs
      exact h.rests hi hk (fail_rests _ _ _)
    | some line =>
      simp only [Thread.readSubscribe] at hs
      split at hs
      · subst hs
        exact absurd rfl ha
      · split at hs
        · subst hs
          exact h.rests hi hk (fail_rests _ _ _)
        · subst hs
          exact h.shakes hi hk (by rw [hpc]; rfl) rfl (fun _ _ => trivial)

theorem Linked.authorized (h : l.Linked) {received : Option Line} {heap : Nat → UInt8}
    {sends inFlight : Bool} (hpc : l.thread.pc = .authorizing)
    (hs : l.thread.step s.stratum s.hashes (.authorized received heap sends inFlight) = some t) :
    (l.effect s t (.authorized received heap sends inFlight)).Linked := by
  obtain ⟨hi,hk⟩ := h.settled hpc rfl nofun
  have hb : l.thread.pc.shakes = true := by rw [hpc]; rfl
  simp only [Thread.step,hpc] at hs
  cases received with
  | none =>
    cases hs
    exact h.rests hi hk (fail_rests _ _ _)
  | some line =>
    simp only [effect]
    by_cases ha : t.pc = .extra ∨ t.pc = .established
    · rw [if_pos ha]
      refine h.marks hi hk hb ?_ (fun c => ⟨rfl,rfl,rfl,rfl⟩) ?_
      · rcases ha with ha | ha <;> rw [ha] <;> rfl
      · intro c hr
        rw [hpc] at hr
        rcases ha with ha | ha <;> rw [ha] <;> exact ⟨hr,rfl⟩
    · rw [if_neg ha]
      refine Linked.hears ?_ l line heap sends
      simp only [Thread.readAuthorize] at hs
      split at hs
      · cases hs
      · split at hs
        · cases hs
          refine h.shakes hi hk hb rfl (fun c hr => ?_)
          rw [hpc] at hr
          exact hr
        · split at hs
          · cases hs
            cases hx : l.thread.extranonce <;> simp [hx] at ha
          · cases hs
            exact h.rests hi hk (fail_rests _ _ _)

def Home (pc : Pc) : Session.Event → Prop
  | .turns _ => pc = .top
  | .looks _ => pc = .dialing
  | .asks _ => ∃ site, pc = .asking site
  | .retargets => ∃ site user, pc = .retargeting site user
  | .connects _ _ => pc = .connecting
  | .subscribed _ _ => ∃ retry, pc = .subscribing retry
  | .authorized _ _ _ _ => pc = .authorizing
  | .extraLost _ | .extraAnswered _ _ _ => pc = .extra
  | .establishes => pc = .established
  | .primes => pc = .priming
  | .interrupted | .silent | .received _ _ _ => pc = .waiting
  | .settles _ => pc = .bottom

theorem step_home {opt : Options} {hs : Hashes} {t t' : Thread} {e : Session.Event}
    (h : t.step opt hs e = some t') : Home t.pc e := by
  unfold Thread.step at h
  split at h <;> rename_i hpc
  all_goals first
    | exact hpc
    | exact ⟨_,hpc⟩
    | exact ⟨_,_,hpc⟩
    | cases h

theorem publish_pc {h : Hashes} {t t' : Thread} (hp : t.publish h = some t') : t'.pc = t.pc := by
  unfold Thread.publish at hp
  split at hp
  · cases hp
  · cases hp
    rfl

theorem step_rests {opt : Options} {hs : Hashes} {t t' : Thread} {e : Session.Event}
    (hpc : t.pc = .established ∨ t.pc = .priming ∨ t.pc = .waiting ∨ t.pc = .bottom)
    (h : t.step opt hs e = some t') : t'.pc.rests = true := by
  unfold Thread.step at h
  split at h <;> rename_i hat
  all_goals try simp only [hat,reduceCtorEq,or_self,or_false,false_or] at hpc
  · cases h
    rfl
  · split at h
    · rw [publish_pc h]
      rfl
    · cases h
      rfl
  · cases h
    rfl
  · cases h
    rfl
  · split at h <;> cases h
    rfl
  · split at h
    · cases h
      rfl
    · split at h
      · cases h
        rfl
      · split at h
        · rw [publish_pc h]
          rfl
        · cases h
          rfl
  · cases h

theorem Linked.extras (h : l.Linked) (hpc : l.thread.pc = .extra) (ht : t.pc = .established) :
    Linked { l with thread := t } := by
  obtain ⟨hi,hk⟩ := h.settled hpc rfl nofun
  refine h.shakes hi hk (by rw [hpc]; rfl) (by rw [ht]; rfl) ?_
  intro c hr
  rw [hpc] at hr
  rw [ht]
  exact hr

theorem Linked.turn (h : l.Linked) {e : Session.Event} (hc : Clear l (.thread e))
    (ht : tied l.machine e = true) (hs : l.thread.step s.stratum s.hashes e = some t) :
    (l.effect s t e).Linked := by
  have hat := step_home hs
  cases e with
  | turns holds => exact h.turns hat hc hs
  | looks holds => exact h.looks hat (beq_iff_eq.mp ht) hs
  | asks | retargets => cases ht
  | connects ok inFlight => exact h.connects hat hc hs
  | subscribed received inFlight =>
    obtain ⟨retry,hpc⟩ := hat
    exact h.subscribed hpc hs
  | authorized received heap sends inFlight => exact h.authorized hat hs
  | extraLost timedOut =>
    simp only [Thread.step,show l.thread.pc = .extra from hat,Option.some.injEq] at hs
    exact h.extras hat (by rw [← hs])
  | extraAnswered line heap sends =>
    simp only [Thread.step,show l.thread.pc = .extra from hat] at hs
    have hpc : t.pc = .established := by
      split at hs
      · cases hs
      · split at hs <;> cases hs <;> rfl
    simp only [effect]
    split
    · exact h.extras hat hpc
    · exact (h.extras hat hpc).hears l line heap sends
  | establishes | primes | interrupted | silent | received | settles =>
    have hrest := step_rests (by simp only [Home] at hat; simp [hat]) hs
    obtain ⟨hi,hk⟩ := h.settled hat rfl nofun
    have hr : Linked { l with thread := t } := h.rests hi hk hrest
    first
      | exact hr
      | exact hr.acknowledge
      | exact hr.hears l _ _ _

theorem Linked.acknowledges (h : l.Linked) (hpc : l.thread.pc = .established)
    (hc : Clear l (.thread .establishes)) (hw : l.machine.waits = true)
    {P : Control.Mutation} (hn : Control.Newest l.machine P) :
    Acknowledged ({ l with thread := t } : Link).acknowledge.acks l.machine.current P := by
  obtain ⟨c,older,ho,hk,hr⟩ := h.shaken (by rw [hpc]; rfl)
  rw [hpc] at hr
  obtain ⟨hp,hq,-⟩ := Control.waits_iff.mp hw
  have hi := h.paired.idle (by rw [hpc]; rfl)
  have htarget := h.ready.steady.targets hp hq
  simp only [Control.Targets,hi] at htarget
  have hdirect : c.redirected = false := hc hw c (by simp [ho])
  have hurl : c.url = P.target.profile.url := by
    calc
      c.url = l.machine.profile.url := hk.resolve_left (by simp [hdirect])
      _ = l.machine.pool.url := htarget
      _ = P.target.profile.url := (hn.2.1 hp).2.symm
  refine ⟨⟨l.machine.current,c⟩,?_,rfl,hurl,hr⟩
  simp [Link.acknowledge,ho,hw]

theorem acknowledge_machine (l : Link) : l.acknowledge.machine = l.machine := by
  unfold Link.acknowledge
  split
  · split <;> rfl
  · rfl

theorem acknowledge_thread (l : Link) : l.acknowledge.thread = l.thread := by
  unfold Link.acknowledge
  split
  · split <;> rfl
  · rfl

theorem Linked.establishes (h : l.Linked) (hc : Clear l (.thread .establishes))
    (hs : (l.turn s .establishes).bind (fun l => l.run s .connected) = some l') :
    l'.Linked := by
  obtain ⟨l₁,ht,hr⟩ := Option.bind_eq_some_iff.mp hs
  obtain ⟨t,hstep,rfl⟩ := turn_some ht
  have hpc : l.thread.pc = .established := step_home hstep
  have hprime : t.pc = .priming := by
    simp only [Thread.step,hpc,Option.some.injEq] at hstep
    rw [← hstep]
  have h₁ := h.turn hc rfl hstep
  have hm₁ : (l.effect s t .establishes).machine = l.machine := acknowledge_machine _
  have ht₁ : (l.effect s t .establishes).thread = t := acknowledge_thread _
  obtain ⟨m,hm,rfl⟩ := run_some hr
  have hi : l.machine.apply = .idle := h.paired.idle (by rw [hpc]; rfl)
  simp only [Control.step,hm₁,hi,Option.some.injEq] at hm
  subst hm
  have hsame := Control.connected_same l.machine
  have hready : Control.Ready (Acknowledged (l.effect s t .establishes).acks) l.machine :=
    hm₁ ▸ h₁.ready
  refine h₁.moved (hready.connected ?_) (by rw [hm₁,hsame.2]) ?_ ?_
  · exact fun hw _ P hn => h.acknowledges hpc hc hw hn
  · rw [hsame.1]
    exact hm₁ ▸ h₁.paired
  · simp [Carried,ht₁,hprime]

theorem Linked.step (h : l.Linked) {e : Event} (hc : Clear l e) (hs : l.step s e = some l') :
    l'.Linked := by
  cases e with
  | barrier e =>
    simp only [Link.step,Option.ite_none_right_eq_some] at hs
    exact h.barrier hs.1 hc hs.2
  | finds =>
    simp only [Link.step] at hs
    split at hs
    · next hi =>
      simp only [Option.ite_none_left_eq_some] at hs
      exact h.unasked hi hs.2
    · cases hs
  | takes =>
    simp only [Link.step] at hs
    split at hs
    · next site hpc => exact h.takes hpc hs
    · cases hs
  | refuses why => exact h.refuses hs
  | moves =>
    simp only [Link.step] at hs
    split at hs
    · exact h.moves hs
    · cases hs
  | writes =>
    simp only [Link.step] at hs
    split at hs
    · next p k ha => exact h.writes ha hs
    · cases hs
  | readsHold => exact h.readsHold hs
  | acks => exact h.acks hs
  | thread e =>
    cases e with
    | establishes => exact h.establishes hc hs
    | _ =>
      simp only [Link.step,Option.ite_none_right_eq_some] at hs
      obtain ⟨ht,hs⟩ := hs
      obtain ⟨t,hstep,rfl⟩ := turn_some hs
      exact h.turn hc ht hstep

theorem linked_start (s : Setup) (n : Nat) (p : Control.Profile) (hook extranonce : Bool) :
    (start s n p hook extranonce).Linked := by
  refine ⟨Control.ready_start n p hook,paired_idle rfl nofun,nofun,.inl (.inr rfl),nofun,nofun,
    nofun⟩

theorem Linked.whereTold (h : l.Linked) : l.WhereTold := by
  refine ⟨h.opened,fun x hx P hP hk ho hr => ?_⟩
  obtain ⟨Q,hQ,hv⟩ := h.ready.vouched x hx
  cases hP.symm.trans hQ
  refine hv ho hk (fun hs => ?_)
  rcases hr with hr | hr <;> cases hs.symm.trans hr

/-- In every run in which no stop clears a reset that carries a change, no stop comes between
the thread's look at the hold and the connection it opens, and no change is acknowledged
where a client.reconnect has led: connections go to the url of the last applied change or
where the pool has sent the miner since, none is opened while the miner is stopped, and a
change that landed in a running or a paused miner and was answered has had that answer
from a connection to its own url. -/
theorem linked_where_told (s : Setup) (n : Nat) (p : Control.Profile) (hook extranonce : Bool)
    (l : Link) (hr : Reach (step s) Clear (start s n p hook extranonce) l) : l.WhereTold :=
  (hr.invariant (I := Linked) (linked_start s n p hook extranonce)
    (fun _ _ _ hl hc hs => hl.step hc hs)).whereTold

def plainSetup : Setup := ⟨⟨true,30000,15,true⟩,patient,plainHashes,fun _ => (.bitcoin,32)⟩

def firstPool : Control.Profile :=
  ⟨ascii "sha256d",ascii "stratum+tcp://a:1",ascii "w",ascii "x"⟩

def secondPool : Event := .barrier (.poolRequest (ascii "stratum+tcp://b:2") [] [] 0 none)

def workerParks : List Event :=
  [.barrier (.seesPark 0),.barrier (.readsTerms 0),.barrier (.parks 0)]

def bringsIn : List Event := [.takes,.moves,.writes,.readsHold]

/-- The first pool does not answer, and the miner is sent to the second. -/
def sentOn : List Event :=
  [.thread (.turns false),.thread (.looks false),.finds,.thread (.connects false false),
    secondPool] ++ workerParks ++ [.thread (.looks false)] ++ bringsIn ++
    [.thread (.connects true true),.thread (.subscribed (some subscribedTo) true),
      .thread (.authorized (some (answer (.bool true))) (fun _ => 0) true true),
      .thread .establishes]

theorem sent_on_and_answered :
    ∃ l, Reach (step plainSetup) Clear (start plainSetup 1 firstPool false false) l ∧
      l.machine.endings.map Control.Ending.outcome = [.landed true] ∧
      l.opened.map Conn.url = [ascii "stratum+tcp://b:2"] ∧ l.WhereTold := by
  obtain ⟨l,hr,he,ho⟩ := reach_of_any (step plainSetup) Clear
    (start plainSetup 1 firstPool false false) sentOn
    (fun l => l.machine.endings.map Control.Ending.outcome = [.landed true] ∧
      l.opened.map Conn.url = [ascii "stratum+tcp://b:2"]) (by decide +kernel)
  exact ⟨l,hr,he,ho,linked_where_told plainSetup 1 firstPool false false l hr⟩

def stoppedAndSentOn : List Event :=
  [.thread (.turns false),.thread (.looks false),.finds,.thread (.connects false false),
    .barrier (.request .stopped 0)] ++ workerParks ++ [secondPool,.barrier (.wakes 0)] ++
    workerParks ++ [.thread (.looks true)] ++ bringsIn ++ [.acks,.thread (.turns true),.finds,
      .barrier (.request .running 0),.barrier (.wakes 0),.thread (.turns false),
      .thread (.looks false),.finds,.thread (.connects true false)]

/-- It connects to the pool that it was sent away from. -/
theorem started_on_the_old_pool :
    ¬ ∀ (s : Setup) (n : Nat) (p : Control.Profile) (hook extranonce : Bool) (l : Link),
      Reach (step s) Lives (start s n p hook extranonce) l → l.WhereTold := by
  intro hall
  obtain ⟨l,hr,c,hc,hn⟩ := reach_of_any (step plainSetup) Lives
    (start plainSetup 1 firstPool false false) stoppedAndSentOn
    (fun l => ∃ c ∈ l.opened, ¬ c.Allowed) (by decide +kernel)
  exact hn ((hall plainSetup 1 firstPool false false l hr).opened c hc)

end Link
end VkMiner.Session
