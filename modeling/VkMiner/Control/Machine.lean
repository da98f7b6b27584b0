import VkMiner.Lib.Runs
import VkMiner.Control.Barrier
set_option autoImplicit false

/-! The barrier as a machine: each event is one critical section of a thread, or
one of the steps it takes outside the lock. -/

namespace VkMiner.Control
open Machine

namespace Machine

def staysParked (m : Machine) (gen : Nat) : Bool :=
  m.parkRequested && m.parkGen == gen && !m.shutdown

def enterPark (m : Machine) (i : Nat) (retains : Bool) : Machine :=
  { m with
    parked := m.parked+1
    parkedGen := m.parkedGen+1
    threads := m.threads.set i (.parked m.parkGen retains) }

def leavePark (m : Machine) (i gen : Nat) : Machine :=
  { m with
    parked := m.parked-1
    parkedGen := if m.parkGen = gen then m.parkedGen-1 else m.parkedGen
    threads := m.threads.set i .mining }

def parkPass (m : Machine) (i gen : Nat) : Machine :=
  if m.staysParked gen then m else ((m.leavePark i gen).settleLocked none).2

def controlPark (m : Machine) (i : Nat) (retains : Bool) : Machine :=
  if m.shutdown then { m with threads := m.threads.set i .mining }
  else (((m.enterPark i retains).settleLocked none).2).parkPass i m.parkGen

abbrev Answer := Option (ControlResult × CStr)

def judgeRun (opt : Options) (m : Machine) (want : ControlState) (own : Nat) :
    Machine × Answer :=
  if m.state = want then (m,some (.ok,[]))
  else if m.deadline ≤ m.now then
    (m.rollbackLocked (some own) .rolledBack (parkTimedOut opt),some (.timeout,parkTimedOut opt))
  else (m,some (.accepted,[]))

def judgePool (opt : Options) (m : Machine) (own : Nat) : Machine × Answer :=
  if m.state ≠ .switching then
    if m.pool.ok then (m,some (.ok,[]))
    else (m,some (if m.pool.refused then .invalid else .timeout,m.lastError))
  else if m.deadline ≤ m.now then
    let m := m.expireLocked opt (some own)
    (m,some (.timeout,m.lastError))
  else (m,some (.accepted,[]))

def judge (opt : Options) (m : Machine) (kind : Kind) (own : Nat) : Machine × Answer :=
  match kind with
  | .run want => m.judgeRun opt want own
  | .pool => m.judgePool opt own

def waitPass (opt : Options) (m : Machine) (kind : Kind) (own answerBy : Nat) :
    Machine × Answer :=
  if m.state ≠ .switching then m.judge opt kind own
  else
    let r := m.settleLocked none
    if !r.1 && r.2.now < answerBy then (r.2,none) else r.2.judge opt kind own

def turnAway (m : Machine) (kind : Kind) (r : ControlResult) (why : CStr) : Machine :=
  { m with callers := m.callers ++ [⟨kind,none,m.now,some (r,why),false⟩] }

def answerBy (m : Machine) (waitMs : Nat) : Nat :=
  if waitMs = 0 then m.deadline else min (m.now+milliseconds waitMs) m.deadline

def awaitOwn (opt : Options) (m : Machine) (kind : Kind) (waitMs : Nat) : Machine :=
  let own := m.current
  let r := m.waitPass opt kind own (m.answerBy waitMs)
  { r.1 with
    callers := r.1.callers ++
      [⟨kind,some own,m.answerBy waitMs,r.2,r.1.mutating && r.1.current == own⟩] }

def catchUp (opt : Options) (m : Machine) : Machine :=
  ((m.settleLocked none).2).expireLocked opt none

def notEnabled : CStr := ascii "the control API is not enabled"
def alreadyInProgress : CStr := ascii "another change is already in progress"

def controlRequest (opt : Options) (m : Machine) (want : ControlState) (waitMs : Nat) : Machine :=
  if !opt.apiControl then m.turnAway (.run want) .disabled notEnabled
  else if want = .switching then
    m.turnAway (.run want) .busy (ascii "'switching' is not a state that can be asked for")
  else
    let m := m.catchUp opt
    if m.mutating then m.turnAway (.run want) .busy alreadyInProgress
    else if m.state = want then m.turnAway (.run want) .ok []
    else (m.postRunLocked opt want).awaitOwn opt (.run want) waitMs

def changedTooRecently (opt : Options) (m : Machine) (what : String) : CStr :=
  ascii what ++ ascii " less than " ++ decimal (minIntervalS opt) ++ ascii " s ago, retry in " ++
    decimal (m.retryAfterSLocked opt) ++ ascii " s"

def postOrRefuse (opt : Options) (m : Machine) (what : String) (url user pass algo : CStr)
    (waitMs : Nat) (want : Option ControlState) : Machine :=
  let m := m.catchUp opt
  if m.mutating then m.turnAway .pool .busy alreadyInProgress
  else if m.retryAfterSLocked opt ≠ 0 then
    m.turnAway .pool .throttled (m.changedTooRecently opt what)
  else (m.postPoolLocked opt url user pass algo false want).awaitOwn opt .pool waitMs

def controlPoolRequest (opt : Options) (m : Machine) (url user pass : CStr) (waitMs : Nat)
    (want : Option ControlState) : Machine :=
  if !opt.apiControl then m.turnAway .pool .disabled notEnabled
  else match poolUrlUsable opt url with
  | .error complaint => m.turnAway .pool .invalid complaint
  | .ok _ => m.postOrRefuse opt "the pool was changed" url user pass [] waitMs want

def controlAlgoRequest (opt : Options) (m : Machine) (algo url user pass : CStr) (waitMs : Nat)
    (want : Option ControlState) : Machine :=
  if !opt.apiControl then m.turnAway .pool .disabled notEnabled
  else if algo.isEmpty then m.turnAway .pool .invalid (ascii "no algorithm was named")
  else match poolUrlUsable opt url with
  | .error complaint => m.turnAway .pool .invalid complaint
  | .ok _ => m.postOrRefuse opt "the miner was switched" url user pass algo waitMs want

def wakeCaller (opt : Options) (m : Machine) (c : Nat) : Option Machine :=
  match m.callers[c]? with
  | some ⟨kind,some own,answerBy,none,_⟩ =>
    let r := m.waitPass opt kind own answerBy
    some { r.1 with
      callers := r.1.callers.set c
        ⟨kind,some own,answerBy,r.2,r.1.mutating && r.1.current == own⟩ }
  | _ => none

def controlSwitchFailed (opt : Options) (m : Machine) (why : CStr) : Machine :=
  let m := m.catchUp opt
  if !m.canRestore || m.restoreInForce || m.mutating then m.recordError why
  else
    { m.postPoolLocked opt m.prev.url m.prev.user m.prev.pass m.prev.algo true none with
      lastError := why }

def takePool (m : Machine) : Machine :=
  let m : Machine := { m with pool := { m.pool with pending := false, applied := true } }
  { m with apply := .taken m.pool m.switchHook m.current }

def noHook : CStr := ascii "this miner cannot change algorithm at runtime"
def hookRefused : CStr := ascii "the switch was refused"

def refusalText (hook : Bool) (why : CStr) : CStr :=
  if !hook then noHook else if why.isEmpty then hookRefused else why

def markRefused (m : Machine) : Machine :=
  { m with pool := { m.pool with refused := true }, apply := .idle }

def refusePool (m : Machine) (hook : Bool) (mutation : Nat) (why : CStr) : Machine :=
  m.markRefused.rollbackLocked (some mutation) .refused (refusalText hook why)

def controlPoolConnected (m : Machine) : Machine :=
  if !m.poolSwitch || !m.pool.applied || m.pool.done then m
  else ((m.answerPool true).settleLocked none).2

def controlReleaseAll (m : Machine) : Machine :=
  { m with
    shutdown := true
    parkRequested := false
    retainShared := false
    pool := { m.pool with pending := false }
    inFlight := false
    holdConnection := false }

end Machine

abbrev NamedRun := {s : ControlState // s ≠ .switching}

inductive Event where
  | tick (ns : Nat)
  | seesPark (i : Nat)
  | readsTerms (i : Nat)
  | parks (i : Nat)
  | wakes (i : Nat)
  | request (want : ControlState) (waitMs : Nat)
  | poolRequest (url user pass : CStr) (waitMs : Nat) (want : Option NamedRun)
  | algoRequest (algo url user pass : CStr) (waitMs : Nat) (want : Option NamedRun)
  | callerWakes (c : Nat)
  | status
  | switchFailed (why : CStr)
  | takes
  | refuses (why : CStr)
  | moves
  | writes
  | readsHold
  | acks
  | connected
  | releaseAll
  deriving DecidableEq, Repr

/-- One step of one thread. The stratum thread acknowledges a connection only
when it is not inside `control_pool_apply`. -/
def step (opt : Options) (m : Machine) : Event → Option Machine
  | .tick ns => some { m with now := m.now+ns }
  | .seesPark i =>
    match m.threads[i]? with
    | some .mining =>
      if m.parkRequested then some { m with threads := m.threads.set i .draining } else none
    | _ => none
  | .readsTerms i =>
    match m.threads[i]? with
    | some .draining => some { m with threads := m.threads.set i (.leaving m.retainShared) }
    | _ => none
  | .parks i =>
    match m.threads[i]? with
    | some (.leaving retains) => some (m.controlPark i retains)
    | _ => none
  | .wakes i =>
    match m.threads[i]? with
    | some (.parked gen _) => some (m.parkPass i gen)
    | _ => none
  | .request want waitMs => some (m.controlRequest opt want waitMs)
  | .poolRequest url user pass waitMs want =>
    some (m.controlPoolRequest opt url user pass waitMs (want.map Subtype.val))
  | .algoRequest algo url user pass waitMs want =>
    some (m.controlAlgoRequest opt algo url user pass waitMs (want.map Subtype.val))
  | .callerWakes c => m.wakeCaller opt c
  | .status => some (m.catchUp opt)
  | .switchFailed why => some (m.controlSwitchFailed opt why)
  | .takes =>
    match m.apply with
    | .idle => if m.pool.pending then some m.takePool else none
    | _ => none
  | .refuses why =>
    match m.apply with
    | .taken p hook k => if p.algo.isEmpty then none else some (m.refusePool hook k why)
    | _ => none
  | .moves =>
    match m.apply with
    | .taken p hook k =>
      if p.algo.isEmpty || hook then
        some { m with profile := m.profile.withAlgo p, apply := .moved p k }
      else none
    | _ => none
  | .writes =>
    match m.apply with
    | .moved p k => some { m with profile := m.profile.withPool p, apply := .written k }
    | _ => none
  | .readsHold =>
    match m.apply with
    | .written k => some { m with apply := if m.holdConnection then .acking k else .idle }
    | _ => none
  | .acks =>
    match m.apply with
    | .acking _ => some ({ m with apply := .idle }).controlPoolConnected
    | _ => none
  | .connected =>
    match m.apply with
    | .idle => some m.controlPoolConnected
    | _ => none
  | .releaseAll => some m.controlReleaseAll

def Machine.start (n : Nat) (profile : Profile) (switchHook : Bool) : Machine where
  now := 0
  parkRequested := false
  retainShared := false
  state := .running
  pending := .running
  previous := .running
  epoch := 0
  switches := 0
  workers := n
  parked := 0
  mutating := false
  shutdown := false
  lastError := []
  parkGen := 0
  parkedGen := 0
  deadline := 0
  stateSince := 0
  lastSwitch := 0
  everSwitched := false
  pool := ⟨[],[],[],[],false,false,false,false,false⟩
  poolSwitch := false
  switchHook := switchHook
  prev := ⟨[],[],[],[]⟩
  canRestore := false
  restoreInForce := false
  inFlight := false
  holdConnection := false
  profile := profile
  threads := List.replicate n .mining
  apply := .idle
  callers := []
  posted := []
  endings := []
  errorOverwritten := false

end VkMiner.Control
