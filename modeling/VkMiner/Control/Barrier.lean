import VkMiner.Core.Text
set_option autoImplicit false

/-! The run-state barrier of api_control.cpp: its globals, and the functions
that run under its lock. Times are the steady clock's nanoseconds. -/

namespace VkMiner.Control

inductive ControlState where
  | running | paused | stopped | switching
  deriving DecidableEq, Repr

inductive ControlResult where
  | ok | accepted | busy | throttled | timeout | disabled | invalid
  deriving DecidableEq, Repr

structure Options where
  apiControl : Bool
  parkTimeout : Int
  minInterval : Int
  haveStratum : Bool
  deriving DecidableEq, Repr

def milliseconds (n : Nat) : Nat := n*1000000
def seconds (n : Nat) : Nat := n*1000000000

def parkTimeoutMs (opt : Options) : Nat :=
  if opt.parkTimeout < 250 then 250 else opt.parkTimeout.toNat

theorem parkTimeoutMs_pos (opt : Options) : 0 < parkTimeoutMs opt := by
  unfold parkTimeoutMs
  split
  · decide
  · omega

def minIntervalS (opt : Options) : Nat := opt.minInterval.toNat

def parkTimedOut (opt : Options) : CStr :=
  ascii "workers did not park within " ++ decimal (parkTimeoutMs opt) ++ ascii " ms"

def poolNotTaken (opt : Options) : CStr :=
  ascii "the pool change was not taken up within " ++ decimal (parkTimeoutMs opt) ++ ascii " ms"

def poolNotAnswered (opt : Options) : CStr :=
  ascii "the pool was changed but did not answer within " ++ decimal (parkTimeoutMs opt) ++
    ascii " ms"

def kSchemes : List CStr :=
  [ascii "stratum+tcp://",ascii "stratum+ssl://",ascii "stratum+tcps://"]

def schemeLength (url : CStr) : Nat :=
  match kSchemes.find? (fun s => s.length < url.length && (url.take s.length).map tolower == s) with
  | some s => s.length
  | none => 0

def poolUrlUsable (opt : Options) (url : CStr) : Except CStr Unit :=
  if !opt.haveStratum then .error (ascii "this miner is not mining against a stratum pool")
  else if 512 < url.length then .error (ascii "the url is too long")
  else if schemeLength url = 0 then
    .error (ascii "expected a stratum+tcp://, stratum+ssl:// or stratum+tcps:// url")
  else
    let host := url.drop (schemeLength url)
    if host.head? = some 47 ∨ host.head? = some 58 then .error (ascii "the url names no host")
    else if host.contains 64 then .error (ascii "credentials go in user and pass, not in the url")
    else if host.any (fun b => b = 32 || b = 9 || b = 13 || b = 10) then
      .error (ascii "the url has whitespace in it")
    else .ok ()

/-- What the miner works on: `opt_algo` and the three `rpc_` strings. -/
structure Profile where
  algo : CStr
  url : CStr
  user : CStr
  pass : CStr
  deriving DecidableEq, Repr

/-- A posted pool change; an empty `algo` is a plain re-target. -/
structure PoolRequest where
  url : CStr
  user : CStr
  pass : CStr
  algo : CStr
  pending : Bool
  applied : Bool
  done : Bool
  ok : Bool
  refused : Bool
  deriving DecidableEq, Repr

/-- The profile once a change is in force: an empty credential is kept, and so
is the algorithm of a plain re-target. -/
def Profile.withPool (p : Profile) (r : PoolRequest) : Profile :=
  { p with
    url := r.url
    user := if r.user.isEmpty then p.user else r.user
    pass := if r.pass.isEmpty then p.pass else r.pass }

def Profile.withAlgo (p : Profile) (r : PoolRequest) : Profile :=
  if r.algo.isEmpty then p else { p with algo := r.algo }

def Profile.after (p : Profile) (r : PoolRequest) : Profile := (p.withAlgo r).withPool r

/-- A worker, as far as its park branch goes. `retains` is what it last read
from `control_park_retains_shared`, and passed to the device. -/
inductive Worker where
  | mining
  | draining
  | leaving (retains : Bool)
  | parked (gen : Nat) (retains : Bool)
  deriving DecidableEq, Repr

def Worker.isParked : Worker → Bool
  | .parked _ _ => true
  | _ => false

def Worker.isParkedIn (g : Nat) : Worker → Bool
  | .parked gen _ => gen == g
  | _ => false

/-- Where the stratum thread is inside `control_pool_apply`. The last argument
is the history's number of the change that was taken. -/
inductive Apply where
  | idle
  | taken (pool : PoolRequest) (hook : Bool) (mutation : Nat)
  | moved (pool : PoolRequest) (mutation : Nat)
  | written (mutation : Nat)
  | acking (mutation : Nat)
  deriving DecidableEq, Repr

/-- A change that was taken, is of the kind `f`, and is not yet wholly in force. -/
def Apply.applies (f : PoolRequest → Bool) : Apply → Bool
  | .taken p _ _ | .moved p _ => f p
  | _ => false

def anyChange (_ : PoolRequest) : Bool := true
def algoChange (p : PoolRequest) : Bool := !p.algo.isEmpty

/-- Algorithm, pool and run state. -/
structure Triple where
  profile : Profile
  run : ControlState
  deriving DecidableEq, Repr

inductive Outcome where
  | landed (answered : Bool)
  | refused
  | rolledBack
  deriving DecidableEq, Repr

def Outcome.isLanded : Outcome → Bool
  | .landed _ => true
  | _ => false

inductive Kind where
  | run (want : ControlState)
  | pool
  deriving DecidableEq, Repr

structure Mutation where
  kind : Kind
  before : Triple
  target : Triple
  epoch : Nat
  switches : Nat
  deriving DecidableEq, Repr

/-- The end of a change. `cause` is the change on whose account it was ended,
when it was not ended by landing of itself or by a passer-by. -/
structure Ending where
  mutation : Nat
  cause : Option Nat
  outcome : Outcome
  reason : CStr
  triple : Triple
  epoch : Nat
  switches : Nat
  threads : List Worker
  parkGen : Nat
  deriving DecidableEq, Repr

/-- One call of the three requests; asleep while `answer` is empty. -/
structure Caller where
  kind : Kind
  mutation : Option Nat
  answerBy : Nat
  answer : Option (ControlResult × CStr)
  inFlightThen : Bool
  deriving DecidableEq, Repr

/-- The globals of api_control.cpp, the profile they move, the threads, and
(from `posted` on) history that no branch reads. -/
structure Machine where
  now : Nat
  parkRequested : Bool
  retainShared : Bool
  state : ControlState
  pending : ControlState
  previous : ControlState
  epoch : Nat
  switches : Nat
  workers : Int
  parked : Int
  mutating : Bool
  shutdown : Bool
  lastError : CStr
  parkGen : Nat
  parkedGen : Int
  deadline : Nat
  stateSince : Nat
  lastSwitch : Nat
  everSwitched : Bool
  pool : PoolRequest
  poolSwitch : Bool
  switchHook : Bool
  prev : Profile
  canRestore : Bool
  restoreInForce : Bool
  inFlight : Bool
  holdConnection : Bool
  profile : Profile
  threads : List Worker
  apply : Apply
  callers : List Caller
  posted : List Mutation
  endings : List Ending
  errorOverwritten : Bool
  deriving DecidableEq, Repr

namespace Machine

def triple (m : Machine) : Triple := ⟨m.profile,m.state⟩

def current (m : Machine) : Nat := m.posted.length-1

def allParkedLocked (m : Machine) : Bool := m.parkedGen ≥ m.workers

def landedLocked (m : Machine) : Bool :=
  if m.pending = .running then m.parked = 0 else m.allParkedLocked

def setStateLocked (m : Machine) (want : ControlState) : Machine :=
  { m with
    state := want
    stateSince := if m.state = want then m.stateSince else m.now }

def handOver (m : Machine) : Machine :=
  { m with pool := { m.pool with pending := true }, inFlight := true }

def answerPool (m : Machine) (ok : Bool) : Machine :=
  { m with pool := { m.pool with done := true, ok := ok } }

def dropPool (m : Machine) : Machine :=
  { m with
    poolSwitch := false
    pool := { m.pool with pending := false }
    inFlight := false }

def setTerms (m : Machine) (s : ControlState) : Machine :=
  { m with
    parkRequested := s ≠ .running
    retainShared := s = .paused
    holdConnection := s = .stopped }

def logEnding (m : Machine) (cause : Option Nat) (o : Outcome) (why : CStr) : Machine :=
  { m with
    errorOverwritten := false
    endings := m.endings ++ [⟨m.current,cause,o,why,m.triple,m.epoch,m.switches,
      m.threads,m.parkGen⟩] }

def commit (m : Machine) (cause : Option Nat) (answered : Bool) : Machine :=
  let m := m.setStateLocked m.pending
  let m : Machine := { m with
    epoch := m.epoch+1
    switches := m.switches+1
    mutating := false
    lastError := if m.restoreInForce then m.lastError else [] }
  (m.setTerms m.state).logEnding cause (.landed answered) []

def settleLocked (m : Machine) (cause : Option Nat) : Bool × Machine :=
  if m.state ≠ .switching then (false,m)
  else if m.poolSwitch then
    let ask := !m.pool.pending && !m.pool.applied
    if ask && !m.allParkedLocked then (false,m)
    else
      let m := if ask then m.handOver else m
      if !m.pool.done then (false,m)
      else (true,m.dropPool.commit cause m.pool.ok)
  else if !m.landedLocked then (false,m)
  else (true,m.commit cause true)

/-- An ending is logged only when there is a change in flight to end. -/
def rollbackLocked (m : Machine) (cause : Option Nat) (o : Outcome) (why : CStr) : Machine :=
  let r : Machine := (m.dropPool.setTerms m.previous).setStateLocked m.previous
  let r : Machine := { r with pending := m.previous, mutating := false, lastError := why }
  { r with
    errorOverwritten := if m.mutating then false else r.errorOverwritten
    endings := if m.mutating then (r.logEnding cause o why).endings else r.endings }

def expireLocked (opt : Options) (m : Machine) (cause : Option Nat) : Machine :=
  if m.state ≠ .switching then m
  else if m.now < m.deadline then m
  else if m.poolSwitch && m.pool.applied then
    { ((m.answerPool false).settleLocked cause).2 with lastError := poolNotAnswered opt }
  else
    m.rollbackLocked cause .rolledBack
      (if m.poolSwitch && m.pool.pending then poolNotTaken opt else parkTimedOut opt)

def retryAfterSLocked (opt : Options) (m : Machine) : Nat :=
  if !m.everSwitched || minIntervalS opt = 0 then 0
  else
    let left : Int := (seconds (minIntervalS opt) : Int)-((m.now : Int)-m.lastSwitch)
    if left ≤ 0 then 0 else (left/1000000000).toNat+1

def recordError (m : Machine) (why : CStr) : Machine :=
  { m with lastError := why, errorOverwritten := true }

def postPoolLocked (opt : Options) (m : Machine) (url user pass algo : CStr)
    (restore : Bool) (want : Option ControlState) : Machine :=
  let pool : PoolRequest := ⟨url,user,pass,algo,false,false,false,false,false⟩
  let pending := want.getD m.state
  let before := m.triple
  let saves : Bool := !algo.isEmpty && !restore
  let m : Machine := { m with
    prev := if saves then m.profile else m.prev
    canRestore :=
      if saves then !m.profile.algo.isEmpty && !m.profile.url.isEmpty else m.canRestore
    restoreInForce := restore
    lastSwitch := m.now
    everSwitched := true
    previous := m.state
    pending := pending }
  let m := m.setStateLocked .switching
  { m with
    mutating := true
    poolSwitch := true
    lastError := if restore then m.lastError else []
    deadline := m.now+milliseconds (parkTimeoutMs opt)
    pool := pool
    retainShared := m.previous ≠ .stopped
    parkRequested := true
    holdConnection := pending = .stopped
    parkGen := m.parkGen+1
    parkedGen := 0
    posted := m.posted ++ [⟨.pool,before,⟨before.profile.after pool,pending⟩,m.epoch,
      m.switches⟩] }

def postRunLocked (opt : Options) (m : Machine) (want : ControlState) : Machine :=
  let before := m.triple
  let m : Machine := { m with previous := m.state, pending := want }
  let m := m.setStateLocked .switching
  let m : Machine := { m with
    mutating := true
    lastError := []
    deadline := m.now+milliseconds (parkTimeoutMs opt)
    posted := m.posted ++ [⟨.run want,before,⟨before.profile,want⟩,m.epoch,m.switches⟩] }
  { m with
    parkRequested := want ≠ .running
    retainShared := want = .paused
    parkGen := if want = .running then m.parkGen else m.parkGen+1
    parkedGen := if want = .running then m.parkedGen else 0 }

end Machine
end VkMiner.Control
