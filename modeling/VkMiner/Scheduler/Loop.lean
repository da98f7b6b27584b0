import VkMiner.Lib.Flow
import VkMiner.Lib.Runs
import VkMiner.Scheduler.Device
set_option autoImplicit false

/-! A worker: the loop of `miner_thread`, from the park it may be asked for to the dispatch that
it makes and the results that it takes back. -/

namespace VkMiner.Scheduler.Mining
open ByteOrder Runs Stratum
open Vulkan (Solution kMaxCandidates)

/-- What a worker is started with. -/
structure Site where
  thrId : Nat
  workers : Nat
  device : Nat
  benchmark : Bool
  benchmarkSeed : Option UInt32
  benchmarkTarget : Option UInt32
  createAlgorithm : CStr → Option Algorithm

structure Share where
  work : Work
  hash : List UInt32
  deriving DecidableEq

structure Capture where
  fault : CandidateFault
  device : Nat
  nonce : Nat
  header : List UInt32
  target : List UInt32
  deviceHash : List UInt32
  hostHash : List UInt32
  deriving DecidableEq

/-- The worker's end of the device. `inflight` is the worker's own; the last six are history:
what `inflight` stands for, all that was launched, what every collect answered and for which
launch, how it left the kernel, what a kernel was let go with, and whether a kernel was called
that was not there. -/
structure Line (b : Backend) where
  kernel : Option b.Kernel
  depth : Nat
  inflight : List Nat
  outstanding : List Launch
  launched : List Launch
  retired : List (Launch × Option (List Solution))
  served : List b.Kernel
  abandoned : List Launch
  astray : Bool

/-- The counts, the last two of which are history: the nonces of failed collects, and how often
`account` was called. -/
structure Tally where
  window : Nat
  published : Nat
  hashes : Nat
  total : Nat
  stale : Nat
  confirmed : Nat
  rejected : Nat
  failed : Nat
  accounts : Nat

/-- The last two are history: how much was outstanding at each park, and that the loop was left. -/
structure Miner (b : Backend) where
  boundAlgo : CStr
  algo : Algorithm
  size : Nat
  work : Work
  nonce : Nat
  haveJob : Bool
  newJob : Bool
  xnonce2 : UInt64
  armed : Bool
  line : Line b
  tally : Tally
  submitted : List Share
  captured : List Capture
  fatal : Bool
  parked : List Nat
  ended : Bool

/-- What the rest of the process answers during one pass: the calls that may come more than
once, by how often they have come. -/
structure Calls (b : Backend) where
  wantsPark : Bool
  optAlgo : CStr
  waiting : Bool
  epoch : UInt32
  gWork : Work
  fits : Bool
  create : b.Calls
  recoverable : Bool
  dialect : Dialect
  hashes : Hashes
  stratum : StratumCtx
  prepareState : b.Calls
  prepareProgram : b.Calls
  dispatch : b.Calls
  collect : Nat → b.Calls
  epochAfter : Nat → UInt32
  closes : Nat → Bool

variable {b : Backend}

namespace Line

def start (b : Backend) : Line b := ⟨none,1,[],[],[],[],[],[],false⟩

def retire (l : Line b) (k : b.Kernel) (rest : List Nat) (found : Option (List Solution)) :
    Line b :=
  { l with
    kernel := some k
    inflight := rest
    outstanding := l.outstanding.tail
    retired := l.retired ++ (l.outstanding.take 1).map fun x => (x,found)
    served := l.served ++ (l.outstanding.take 1).map fun _ => k }

def reset (l : Line b) : Line b :=
  { l with kernel := none, outstanding := [], abandoned := l.abandoned ++ l.outstanding }

def install (l : Line b) (k : b.Kernel) : Line b :=
  { l with kernel := some k, depth := Nat.max 1 (b.queueDepth k) }

def push (l : Line b) (k : b.Kernel) (x : Launch) : Line b :=
  { l with
    kernel := some k
    inflight := l.inflight ++ [x.count]
    outstanding := l.outstanding ++ [x]
    launched := l.launched ++ [x] }

end Line

namespace Tally

def zero : Tally := ⟨0,0,0,0,0,0,0,0,0⟩

def publish (t : Tally) : Tally := { t with published := t.published+t.window, window := 0 }

def account (t : Tally) (nonces : Nat) (closes : Bool) : Tally :=
  let t := { t with window := t.window+nonces, accounts := t.accounts+1 }
  if closes then t.publish else t

def batch (t : Tally) (nonces : Nat) (late : Bool) : Tally :=
  { t with
    hashes := t.hashes+nonces
    total := t.total+1
    stale := t.stale+late.toNat }

end Tally

def benchmarkWord (a : Algorithm) : Nat := if 15 < a.headerBytes/4 then 15 else 0

def benchmarkSeedWord (a : Algorithm) : Nat := if benchmarkWord a = 15 then 14 else 1

def benchmarkWork (site : Site) (a : Algorithm) : Option Work :=
  a.startupHeader.map fun header =>
    let data := (beWords header).take (a.headerBytes/4)
    let data := data.modify (benchmarkWord a) (· ^^^ 1)
    let data := match site.benchmarkSeed with
      | some seed => data.modify (benchmarkSeedWord a) (· ^^^ seed)
      | none => data
    { data := data
      jobId := []
      xnonce2 := []
      target := match site.benchmarkTarget with
        | some t => List.replicate 7 0xffffffff ++ [t]
        | none => [0,0,0,0,0,0,0xffff,0]
      nonceBase := 0
      jobEpoch := 0
      nonce := 0
      mixhash := none }

namespace Miner

def walkBits (m : Miner b) : Nat := Nat.min m.algo.nonceBits 64

def first (site : Site) (m : Miner b) : Nat := firstNonce site.workers m.walkBits site.thrId

def last (site : Site) (m : Miner b) : Nat := endNonce site.workers m.walkBits site.thrId

def rolls (m : Miner b) : Bool := rollsXnonce2 m.walkBits

def bound (site : Site) (name : CStr) (a : Algorithm) (m : Miner b) : Miner b :=
  { m with
    boundAlgo := name
    algo := a
    size := a.size
    nonce := firstNonce site.workers (Nat.min a.nonceBits 64) site.thrId
    haveJob := false
    armed := false }

def account (c : Calls b) (nonces : Nat) (m : Miner b) : Miner b :=
  { m with tally := m.tally.account nonces (c.closes m.tally.accounts) }

/-- The header comes from the worker's own copy of the job. -/
def capture (site : Site) (m : Miner b) (fault : CandidateFault) (s : Solution)
    (hash : List UInt32) : Capture :=
  ⟨fault,site.device,s.nonce,m.work.data.take 20,m.work.target,s.hash,hash⟩

def reject (site : Site) (s : Solution) (hash : List UInt32) (m : Miner b) : Miner b :=
  { m with
    tally := { m.tally with rejected := m.tally.rejected+1 }
    captured := m.captured ++ [m.capture site .belowTarget s hash] }

def confirm (site : Site) (s : Solution) (hash : List UInt32) (m : Miner b) : Miner b :=
  { m with
    tally := { m.tally with confirmed := m.tally.confirmed+1 }
    captured := m.captured ++
      if hash ≠ s.hash then [m.capture site .wrongDigest s hash] else [] }

def submit (nonce : UInt64) (hash : List UInt32) (m : Miner b) : Miner b :=
  let data := m.algo.place m.work.data nonce
  let work := { m.work with
    data := data, nonce := nonce, mixhash := m.algo.submitMix m.size data nonce }
  { m with work := work, submitted := m.submitted ++ [⟨work,hash⟩] }

def solve (site : Site) (m : Miner b) (s : Solution) : Miner b :=
  let nonce := UInt64.ofNat s.nonce
  let v := m.algo.verify m.size m.work.data nonce m.work.target
  if !v.1 then m.reject site s v.2
  else if site.benchmark then m.confirm site s v.2
  else (m.confirm site s v.2).submit nonce v.2

def reap (site : Site) (c : Calls b) (m : Miner b) : Bool × Miner b :=
  match m.line.inflight,m.line.kernel with
  | [],_ => (true,m)
  | _ :: _,none => (false,{ m with line := { m.line with astray := true } })
  | nonces :: rest,some k =>
    let i := m.line.retired.length
    let (found,k) := b.collect k kMaxCandidates (c.collect i)
    let m := { m with line := m.line.retire k rest found }
    match found with
    | none =>
      (false,{ m with tally := { m.tally with failed := m.tally.failed+nonces } }.account c 0)
    | some found =>
      let late := !site.benchmark && m.work.jobEpoch != c.epochAfter i
      let m := m.account c nonces
      (true,found.foldl (solve site) { m with tally := m.tally.batch nonces late })

def reaps (site : Site) (c : Calls b) : Nat → Miner b → Miner b
  | 0,m => m
  | n+1,m => reaps site c n (m.reap site c).2

def drain (site : Site) (c : Calls b) (m : Miner b) : Miner b :=
  m.reaps site c m.line.inflight.length

def reset (m : Miner b) : Miner b := { m with line := m.line.reset }

def fail (m : Miner b) : Miner b := { m with fatal := true }

/-- `build_kernel`. A build that could not be made goes round again where a switch has a profile
to go back to. -/
def build (c : Calls b) (m : Miner b) : LoopFlow (Miner b) :=
  let giveUp := if c.recoverable then LoopFlow.again m else .out m.fail
  if !c.fits then giveUp
  else
    match b.create m.algo m.size c.create with
    | none => giveUp
    | some k => .on { m with line := m.line.install k }

def park (site : Site) (c : Calls b) (m : Miner b) : LoopFlow (Miner b) :=
  let held := (m.drain site c).line.outstanding.length
  let m := (m.drain site c).reset
  let m := { m with tally := m.tally.publish, parked := m.parked ++ [held] }
  if m.boundAlgo ≠ c.optAlgo then
    match site.createAlgorithm c.optAlgo with
    | none => .out m.fail
    | some a => .again (m.bound site c.optAlgo a)
  else .again m

def seek (site : Site) (c : Calls b) (m : Miner b) : LoopFlow (Miner b) :=
  if site.benchmark then
    if m.haveJob then .on m
    else
      match benchmarkWork site m.algo with
      | none => .out m.fail
      | some work => .on { m with work := work, haveJob := true, newJob := true }
  else if c.waiting then .again ((m.drain site c).account c 0)
  else if m.work.jobEpoch ≠ c.epoch then
    .on { m.drain site c with work := c.gWork, newJob := true }
  else .on m

def rebuild (site : Site) (c : Calls b) (m : Miner b) : LoopFlow (Miner b) :=
  if m.line.kernel.isSome then (m.drain site c).reset.build c else m.build c

def advance (site : Site) (m : Miner b) : LoopFlow (Miner b) :=
  let m := { m with xnonce2 := m.xnonce2+UInt64.ofNat site.workers, armed := false }
  if !site.benchmark && m.rolls && m.work.xnonce2.length == 0 then .out m.fail else .on m

def retarget (site : Site) (c : Calls b) (m : Miner b) : LoopFlow (Miner b) :=
  let r := m.algo.retarget m.size m.work.data
  let m := { m with nonce := m.first site, size := r.2 }
  if r.1 || m.line.kernel.isNone then m.rebuild site c else .on m

def begin (site : Site) (c : Calls b) (m : Miner b) : LoopFlow (Miner b) :=
  if m.newJob then (m.retarget site c).bind (advance site) else .on m

def resume (c : Calls b) (m : Miner b) : LoopFlow (Miner b) :=
  if m.line.kernel.isNone then m.build c else .on m

def arm (site : Site) (c : Calls b) (m : Miner b) : LoopFlow (Miner b) :=
  if !site.benchmark && m.rolls && !m.armed then
    let m := m.drain site c
    match stratumSetExtranonce2 c.dialect c.hashes c.stratum m.work.toWork m.xnonce2 with
    | none => .again (m.account c 0)
    | some (work,_) => .on { m with work := { m.work with toWork := work }, armed := true }
  else .on m

def exhaust (site : Site) (c : Calls b) (m : Miner b) : Miner b :=
  if site.benchmark then
    let m := m.drain site c
    { m with
      nonce := m.first site
      work := { m.work with data := m.work.data.modify (benchmarkWord m.algo) (·+1) } }
  else if m.rolls then
    { m with
      nonce := m.first site, xnonce2 := m.xnonce2+UInt64.ofNat site.workers, armed := false }
  else { m with nonce := m.first site }

def recover (site : Site) (c : Calls b) (m : Miner b) : LoopFlow (Miner b) :=
  .again ((m.drain site c).account c 0)

/-- The dispatch as this worker would make it. -/
def request (m : Miner b) (batch : Nat) : Launch :=
  ⟨m.work,m.work.nonceBase ||| UInt64.ofNat m.nonce,batch,m.algo,m.size,
    m.algo.stateKey m.size m.work.data,m.algo.programKey m.work.data⟩

/-- Collected only once the device has as much as it will take. -/
def collectFull (site : Site) (c : Calls b) (m : Miner b) : LoopFlow (Miner b) :=
  if m.line.depth ≤ m.line.inflight.length then
    let (ok,m) := m.reap site c
    if !ok then m.recover site c else .on m
  else .on m

def dispatch (site : Site) (c : Calls b) (batch : Nat) (m : Miner b) (k : b.Kernel) :
    LoopFlow (Miner b) :=
  let x := m.request batch
  let (ok,k) := b.dispatch k x c.dispatch
  if !ok then { m with line := { m.line with kernel := some k } }.recover site c
  else { m with line := m.line.push k x, nonce := m.nonce+batch }.collectFull site c

def prepare (site : Site) (c : Calls b) (batch : Nat) (m : Miner b) (k : b.Kernel) :
    LoopFlow (Miner b) :=
  let (ok,k) := b.prepareState k (m.algo.stateKey m.size m.work.data) c.prepareState
  if !ok then { m with line := { m.line with kernel := some k } }.recover site c
  else
    let (ok,k) := b.prepareProgram k (m.algo.programKey m.work.data) c.prepareProgram
    let m := { m with line := { m.line with kernel := some k } }
    if !ok then m.recover site c else m.dispatch site c batch k

def launch (site : Site) (c : Calls b) (m : Miner b) : LoopFlow (Miner b) :=
  match m.line.kernel with
  | none => .again { m with line := { m.line with astray := true } }
  | some k =>
    let batch := clampedBatch (m.last site) m.nonce (b.preferredBatch k)
    if batch = 0 then .again (m.exhaust site c) else m.prepare site c batch k

def pass (site : Site) (c : Calls b) (m : Miner b) : LoopFlow (Miner b) :=
  let m := { m with newJob := false }
  if c.wantsPark then m.park site c
  else
    ((((m.seek site c).bind (begin site c)).bind (resume c)).bind (arm site c)).bind (launch site c)

def finish (site : Site) (c : Calls b) (m : Miner b) : Miner b :=
  { (m.drain site c).reset with ended := true }

end Miner

inductive Event (b : Backend) where
  | pass (c : Calls b)
  | stop (c : Calls b)

def step (site : Site) (m : Miner b) (e : Event b) : Option (Miner b) :=
  if m.ended then none
  else
    match e with
    | .pass c =>
      match m.pass site c with
      | .on m => some m
      | .again m => some m
      | .out m => some (m.finish site c)
    | .stop c => some (m.finish site c)

/-- A worker that has found its algorithm. -/
def opened (b : Backend) (site : Site) (optAlgo : CStr) : Option (Miner b) :=
  (site.createAlgorithm optAlgo).map fun a =>
    { boundAlgo := optAlgo
      algo := a
      size := a.size
      work := .zero
      nonce := firstNonce site.workers (Nat.min a.nonceBits 64) site.thrId
      haveJob := false
      newJob := false
      xnonce2 := UInt64.ofNat site.thrId
      armed := false
      line := .start b
      tally := .zero
      submitted := []
      captured := []
      fatal := false
      parked := []
      ended := false }

def plainSite : Site where
  thrId := 2000
  workers := 2^58
  device := 0
  benchmark := false
  benchmarkSeed := none
  benchmarkTarget := none
  createAlgorithm _ := some plainAlgorithm

/-- A pass with that job, in which nothing goes wrong. -/
def plainCalls (c : b.Calls) (epoch : UInt32) : Calls b where
  wantsPark := false
  optAlgo := []
  waiting := false
  epoch := epoch
  gWork := { Work.zero with
    data := List.replicate 20 0, target := List.replicate 7 0 ++ [126001], jobEpoch := epoch }
  fits := true
  create := c
  recoverable := false
  dialect := .bitcoin
  hashes := plainHashes
  stratum := .zero
  prepareState := c
  prepareProgram := c
  dispatch := c
  collect _ := c
  epochAfter _ := epoch
  closes _ := false

def plainMiner (b : Backend) : Miner b := (opened b plainSite []).get rfl

end VkMiner.Scheduler.Mining
