import VkMiner.Control.Machine
set_option autoImplicit false

/-! What a critical section can do. Every event is a finite run of the moves
below, so an invariant is checked once for each move and not for each event. -/

namespace VkMiner.Control
open Machine Runs

inductive Move where
  | tick (ns : Nat)
  | sees (i : Nat)
  | reads (i : Nat)
  | enters (i : Nat) (retains : Bool)
  | leaves (i gen : Nat)
  | turnsBack (i : Nat)
  | handsOver
  | lands
  | landsUnanswered (cause : Option Nat)
  | expires (cause : Option Nat)
  | timesOut (want : ControlState) (own : Nat)
  | postsPool (url user pass algo : CStr) (restore : Bool) (want : Option ControlState)
  | postsRun (want : ControlState)
  | notes (why : CStr)
  | explains (why : CStr)
  | records (callers : List Caller)
  | takes
  | refuses (why : CStr)
  | moves
  | writes
  | readsHold
  | returns
  | connects
  | releases

namespace Machine

def settles (m : Machine) : Bool :=
  m.state = .switching &&
    (if m.poolSwitch then
      m.pool.done && (m.pool.pending || m.pool.applied || m.allParkedLocked)
    else m.landedLocked)

def asks (m : Machine) : Bool :=
  m.state = .switching && m.poolSwitch && !m.pool.pending && !m.pool.applied &&
    m.allParkedLocked

def land (m : Machine) : Machine :=
  if m.poolSwitch then m.dropPool.commit none m.pool.ok else m.commit none true

def landUnanswered (opt : Options) (m : Machine) (cause : Option Nat) : Machine :=
  { (m.answerPool false).dropPool.commit cause false with lastError := poolNotAnswered opt }

def expireText (opt : Options) (m : Machine) : CStr :=
  if m.poolSwitch && m.pool.pending then poolNotTaken opt else parkTimedOut opt

end Machine

def fine (opt : Options) (m : Machine) : Move → Option Machine
  | .tick ns => some { m with now := m.now+ns }
  | .sees i =>
    if m.threads[i]? = some .mining ∧ m.parkRequested = true then
      some { m with threads := m.threads.set i .draining } else none
  | .reads i =>
    if m.threads[i]? = some .draining then
      some { m with threads := m.threads.set i (.leaving m.retainShared) } else none
  | .enters i retains =>
    if m.threads[i]? = some (.leaving retains) ∧ m.shutdown = false then
      some (m.enterPark i retains) else none
  | .leaves i gen =>
    if (∃ r, m.threads[i]? = some (.parked gen r)) ∧ m.staysParked gen = false then
      some (m.leavePark i gen) else none
  | .turnsBack i =>
    if m.shutdown = true then some { m with threads := m.threads.set i .mining } else none
  | .handsOver => if m.asks then some m.handOver else none
  | .lands => if m.settles then some m.land else none
  | .landsUnanswered cause =>
    if m.state = .switching ∧ m.deadline ≤ m.now ∧ m.poolSwitch = true ∧
        m.pool.applied = true then
      some (m.landUnanswered opt cause) else none
  | .expires cause =>
    if m.state = .switching ∧ m.deadline ≤ m.now ∧
        (m.poolSwitch && m.pool.applied) = false then
      some (m.rollbackLocked cause .rolledBack (m.expireText opt)) else none
  | .timesOut want own =>
    if m.deadline ≤ m.now ∧ m.state ≠ want then
      some (m.rollbackLocked (some own) .rolledBack (parkTimedOut opt)) else none
  | .postsPool url user pass algo restore want =>
    if m.mutating = false then some (m.postPoolLocked opt url user pass algo restore want)
    else none
  | .postsRun want =>
    if m.mutating = false ∧ m.state ≠ want ∧ want ≠ .switching then
      some (m.postRunLocked opt want) else none
  | .notes why => some (m.recordError why)
  | .explains why => some { m with lastError := why }
  | .records callers => some { m with callers := callers }
  | .takes =>
    if m.apply = .idle ∧ m.pool.pending = true then some m.takePool else none
  | .refuses why =>
    match m.apply with
    | .taken p hook k => if p.algo.isEmpty then none else some (m.refusePool hook k why)
    | _ => none
  | .moves =>
    match m.apply with
    | .taken p _ k => some { m with profile := m.profile.withAlgo p, apply := .moved p k }
    | _ => none
  | .writes =>
    match m.apply with
    | .moved p k => some { m with profile := m.profile.withPool p, apply := .written k }
    | _ => none
  | .readsHold =>
    match m.apply with
    | .written k => some { m with apply := if m.holdConnection then .acking k else .idle }
    | _ => none
  | .returns =>
    match m.apply with
    | .acking _ => some { m with apply := .idle }
    | _ => none
  | .connects =>
    if m.apply = .idle ∧ m.poolSwitch = true ∧ m.pool.applied = true ∧ m.pool.done = false then
      some (m.answerPool true) else none
  | .releases => some m.controlReleaseAll

end VkMiner.Control
