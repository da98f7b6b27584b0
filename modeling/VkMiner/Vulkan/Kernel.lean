import Mathlib.Algebra.Group.Nat.Defs
import Mathlib.Data.List.Basic
import Mathlib.Logic.Function.Basic
import VkMiner.Lib.Runs
set_option autoImplicit false

/-! One kernel on its ring of command buffers: what `dispatch`, `collect` and
`prepare_program` do with the slots, the queue of what is in flight and the pipelines. -/

namespace VkMiner.Vulkan
open Runs

def kMaxCandidates : Nat := 32
def kCandidateWords : Nat := 10
def kFoundWord : Nat := 0
def kHeaderWords : Nat := 3

structure Solution where
  nonce : Nat
  hash : List UInt32
  deriving DecidableEq

structure Pipeline where
  id : Nat
  program : Nat
  deriving DecidableEq

/-- One dispatch that was submitted. `ticket` counts the slots the ring had handed out
before, and `key` is the program that the caller had last prepared the kernel for. -/
structure Launch where
  ticket : Nat
  slot : Nat
  start : Nat
  count : Nat
  pipeline : Option Pipeline
  key : Nat
  deriving DecidableEq

/-- A slot of the ring with the buffers paired with it. `fence`, `running` and `readback` are
the device's; `job` is what was submitted from the slot last, and `unseen` that nobody has
seen its fence signal since. -/
structure Slot where
  pending : Bool
  fence : Bool
  running : Bool
  readback : List UInt32
  job : Option Launch
  unseen : Bool

structure Pending where
  slot : Nat
  count : Nat
  deriving DecidableEq

/-- What `collect` answered for a dispatch: its count as it was remembered, the room the
caller gave, and the solutions, or none where the device failed. -/
structure Return where
  count : Nat
  max : Int
  answer : Option (List Solution)
  deriving DecidableEq

/-- A pipeline that was let go, with the slots that held work recorded against it whose
fence nobody had seen signal. -/
structure Destroyed where
  pipeline : Pipeline
  under : List Nat
  deriving DecidableEq

/-- What `init` settles. -/
structure Shape where
  depth : Nat
  depth_pos : 0 < depth
  shared : Bool
  pushBytes : Nat
  uniformBytes : Nat
  programConstants : Nat
  maxBatch : Nat

/-- The last eight fields are history. -/
structure Machine where
  next : Nat
  slots : Nat → Slot
  queue : Nat → Pending
  head : Nat
  inflight : Nat
  stateReady : Bool
  pipeline : Option Pipeline
  retiring : Option Pipeline
  programKey : Nat
  programReady : Bool
  ahead : Option Nat
  begun : Nat
  built : Nat
  prepared : Nat
  launched : List Launch
  returned : List Return
  finished : List (Launch × List UInt32)
  givenUp : List Nat
  destroyed : List Destroyed

def Slot.fresh : Slot := ⟨false,true,false,[],none,false⟩

/-- A kernel as `init` leaves it. Only a module that is its whole program has a pipeline. -/
def start (k : Shape) : Machine where
  next := 0
  slots := fun _ => Slot.fresh
  queue := fun _ => ⟨0,0⟩
  head := 0
  inflight := 0
  stateReady := false
  pipeline := if k.programConstants = 0 then some ⟨0,0⟩ else none
  retiring := none
  programKey := 0
  programReady := false
  ahead := none
  begun := 0
  built := 1
  prepared := 0
  launched := []
  returned := []
  finished := []
  givenUp := []
  destroyed := []

namespace Slot

/-- `CommandRing::poll`: none on a device error, otherwise whether the slot completed. -/
def poll (s : Slot) (error : Bool) : Option (Bool × Slot) :=
  if !s.pending then some (true,s)
  else if error then none
  else if s.fence then some (true,{ s with pending := false, unseen := false })
  else some (false,s)

def wait (s : Slot) (error : Bool) : Option Slot :=
  match s.poll error with
  | some (true,s) => some s
  | _ => none

end Slot

/-- What the algorithm and the driver answer to one dispatch. -/
structure DispatchCalls where
  ensured : Bool
  wrote : Nat
  block : Nat
  waitError : Bool
  reset : Bool
  begins : Bool
  flushed : Bool
  ends : Bool
  resetFence : Bool
  submitted : Bool

structure ProgramCalls where
  /-- whether the compile in the background came to a pipeline -/
  aheadBuilt : Bool
  built : Bool
  nextKey : Nat

structure CollectCalls where
  pollError : Bool
  waitError : Bool
  invalidated : Bool

def candidate (words : List UInt32) (i : Nat) : Solution where
  nonce := (words.getD (kHeaderWords + i * kCandidateWords) 0).toNat +
    (words.getD (kHeaderWords + i * kCandidateWords + 1) 0).toNat * 2 ^ 32
  hash := (List.range 8).map fun j => words.getD (kHeaderWords + i * kCandidateWords + 2 + j) 0

def taken (words : List UInt32) (max : Int) : Nat :=
  let found := Nat.min (words.getD kFoundWord 0).toNat kMaxCandidates
  if 0 ≤ max ∧ max.toNat < found then max.toNat else found

def solutions (words : List UInt32) (max : Int) : List Solution :=
  (List.range (taken words max)).map (candidate words)

namespace Machine

def setSlot (m : Machine) (i : Nat) (s : Slot) : Machine :=
  { m with slots := Function.update m.slots i s }

/-- The slots with work recorded against the pipeline whose fence nobody has seen. -/
def under (k : Shape) (m : Machine) (p : Pipeline) : List Nat :=
  (List.range k.depth).filter fun i =>
    (m.slots i).unseen && (m.slots i).job.any (fun l => l.pipeline == some p)

def destroy (k : Shape) (m : Machine) (p : Pipeline) : Machine :=
  { m with destroyed := m.destroyed ++ [⟨p,m.under k p⟩] }

def idle (k : Shape) (m : Machine) : Bool := (List.range k.depth).all fun i => !(m.slots i).running

def waitIdle (m : Machine) : Machine :=
  { m with slots := fun i => { m.slots i with unseen := false }, givenUp := [] }

/-- `CommandRing::begin`. The cursor moves before anything that can fail. -/
def begin (k : Shape) (m : Machine) (c : DispatchCalls) : Option Nat × Machine :=
  let i := m.next
  let m := { m with next := (m.next + 1) % k.depth, begun := m.begun + 1 }
  match (m.slots i).wait c.waitError with
  | none => (none,m)
  | some s =>
    let m := { m.setSlot i s with givenUp := m.givenUp.filter (· ≠ i) }
    if c.reset && c.begins then (some i,m) else (none,m)

def submit (m : Machine) (l : Launch) (c : DispatchCalls) : Bool × Machine :=
  let s := m.slots l.slot
  if !c.ends then (false,m)
  else if !c.resetFence then (false,m)
  else if !c.submitted then (false,m.setSlot l.slot { s with fence := false })
  else
    (true,m.setSlot l.slot
      { s with fence := false, pending := true, running := true, job := some l, unseen := true })

def ready (k : Shape) (m : Machine) (count : Nat) (c : DispatchCalls) : Bool :=
  count != 0 && (!k.shared || (m.stateReady && c.ensured)) &&
    (k.programConstants == 0 || m.programReady) && decide (count ≤ k.maxBatch) &&
    decide (m.inflight < k.depth) && c.wrote == k.pushBytes &&
    (k.uniformBytes == 0 || c.block == k.uniformBytes)

def recorded (m : Machine) (i start count : Nat) : Launch :=
  ⟨m.begun,i,start,count,m.pipeline,m.prepared⟩

def dispatch (k : Shape) (m : Machine) (start count : Nat) (c : DispatchCalls) : Bool × Machine :=
  if m.ready k count c then
    let l := m.recorded m.next start count
    match m.begin k c with
    | (none,m) => (false,m)
    | (some i,m) =>
      if k.uniformBytes != 0 && !c.flushed then (false,m)
      else
        match m.submit l c with
        | (false,m) => (false,m)
        | (true,m) =>
          (true,{ m with
            queue := Function.update m.queue ((m.head + m.inflight) % k.depth) ⟨i,count⟩
            inflight := m.inflight + 1
            launched := m.launched ++ [l] })
  else (false,m)

/-- The rest of `collect`, once the oldest entry has been taken off the queue. -/
def answer (m : Machine) (entry : Pending) (max : Int) (c : CollectCalls) : Return × Machine :=
  let gaveUp : Return × Machine :=
    (⟨entry.count,max,none⟩,{ m with givenUp := m.givenUp ++ [entry.slot] })
  match (m.slots entry.slot).poll c.pollError with
  | none => gaveUp
  | some (done,s) =>
    match (if done then some s else s.wait c.waitError) with
    | none => gaveUp
    | some s =>
      let m := m.setSlot entry.slot s
      if c.invalidated then (⟨entry.count,max,some (solutions s.readback max)⟩,m)
      else (⟨entry.count,max,none⟩,m)

def take (k : Shape) (m : Machine) : Machine :=
  let m := { m with head := (m.head + 1) % k.depth, inflight := m.inflight - 1 }
  match m.retiring with
  | some p => if m.inflight = 0 then { m.destroy k p with retiring := none } else m
  | none => m

def collect (k : Shape) (m : Machine) (max : Int) (c : CollectCalls) : Machine :=
  if m.inflight = 0 then m
  else
    let (r,m) := (m.take k).answer (m.queue m.head) max c
    { m with returned := m.returned ++ [r] }

def retire (k : Shape) (m : Machine) (old : Option Pipeline) : Machine :=
  match old with
  | none => m
  | some p =>
    let m := match m.retiring with
      | some q => { m.waitIdle.destroy k q with retiring := none }
      | none => m
    if m.inflight ≠ 0 then { m with retiring := some p } else m.destroy k p

def obtains (m : Machine) (key : Nat) (c : ProgramCalls) : Bool :=
  (m.ahead == some key && c.aheadBuilt) || c.built

def changes (k : Shape) (m : Machine) (key : Nat) : Bool :=
  k.programConstants != 0 && !(m.programReady && key == m.programKey)

def prepareProgram (k : Shape) (m : Machine) (key : Nat) (c : ProgramCalls) : Bool × Machine :=
  if !m.changes k key then (true,{ m with prepared := key })
  else if !m.obtains key c then (false,{ m with ahead := none })
  else
    (true,{ m.retire k m.pipeline with
      pipeline := some ⟨m.built,key⟩
      built := m.built + 1
      prepared := key
      programKey := key
      programReady := true
      ahead := if c.nextKey = 0 ∨ c.nextKey = key then none else some c.nextKey })

def finish (m : Machine) (i : Nat) (words : List UInt32) : Option Machine :=
  match (m.slots i).running, (m.slots i).job with
  | true, some l =>
    some { m.setSlot i { m.slots i with fence := true, running := false, readback := words } with
      finished := m.finished ++ [(l,words)] }
  | _, _ => none

end Machine

inductive Event where
  | prepareState (ensured : Bool)
  | prepareProgram (key : Nat) (c : ProgramCalls)
  | dispatch (start count : Nat) (c : DispatchCalls)
  | collect (max : Int) (c : CollectCalls)
  | finish (slot : Nat) (words : List UInt32)

def waits (k : Shape) (m : Machine) : Event → Bool
  | .prepareProgram key c =>
    m.changes k key && m.obtains key c && m.pipeline.isSome && m.retiring.isSome
  | _ => false

def step (k : Shape) (m : Machine) (e : Event) : Option Machine :=
  if waits k m e && !m.idle k then none
  else
    match e with
    | .prepareState ensured =>
      some (if k.shared && ensured then { m with stateReady := true } else m)
    | .prepareProgram key c => some (m.prepareProgram k key c).2
    | .dispatch start count c => some (m.dispatch k start count c).2
    | .collect max c => some (m.collect k max c)
    | .finish i words => m.finish i words

end VkMiner.Vulkan
