import VkMiner.Stratum.Job
set_option autoImplicit false

/-! mining.notify, in its two shapes: what is read out of the parameters, what is
refused, and what is written to the job before and after each refusal. -/

namespace VkMiner.Stratum

/-- Why a notify is refused, in the order in which the source asks. -/
inductive NotifyRefusal where
  | noClaim | noBranch | invalidParameters | badBranchEntry
  | invalidProgpow | noHeight | noTarget
  deriving DecidableEq, Repr

/-- The parameters of a job with a coinbase, once they have been found sound. -/
structure CoinbaseNotify where
  jobId : CStr
  prevhash : HexText 32
  claim : Option (HexText 32)
  coinb1 : CStr
  coinb2 : CStr
  branch : List Json
  version : HexText 4
  nbits : HexText 4
  ntime : HexText 4
  clean : Bool

def readCoinbaseFrom (params : Option Json) (claim : Option (HexText 32)) (p : Nat) :
    Except NotifyRefusal CoinbaseNotify :=
  let str (i : Nat) := jsonStringValue (jsonArrayGet params i)
  match jsonArrayGet params (p+2) with
  | some (.array branch) =>
    match str 0,str 1,str p,str (p+1),str (p+3),str (p+4),str (p+5) with
    | some jobId,some prevhash,some coinb1,some coinb2,some version,some nbits,some ntime =>
      if h : prevhash.length = 64 ∧ version.length = 8 ∧ nbits.length = 8 ∧ ntime.length = 8 then
        .ok ⟨jobId,⟨prevhash,h.1⟩,claim,coinb1,coinb2,branch,⟨version,h.2.1⟩,⟨nbits,h.2.2.1⟩,
          ⟨ntime,h.2.2.2⟩,jsonIsTrue (jsonArrayGet params (p+6))⟩
      else .error .invalidParameters
    | _,_,_,_,_,_,_ => .error .invalidParameters
  | _ => .error .noBranch

/-- The first half of `stratum_bitcoin_notify`, which writes nothing. LBRY has the
claimtrie root in front of the coinbase. -/
def readCoinbaseNotify (d : Dialect) (params : Option Json) :
    Except NotifyRefusal CoinbaseNotify :=
  if d = .lbry then
    match jsonStringValue (jsonArrayGet params 2) with
    | some claim =>
      if h : claim.length = 64 then readCoinbaseFrom params (some ⟨claim,h⟩) 3
      else .error .noClaim
    | none => .error .noClaim
  else readCoinbaseFrom params none 2

def branchEntry (j : Json) : Option (HexText 32) :=
  match j with
  | .string s => if h : s.length = 64 then some ⟨s,h⟩ else none
  | _ => none

/-- The merkle loop: entries are written until one of them is refused. -/
def writeBranch : List (Fixed 32) → List Json → Bool × List (Fixed 32)
  | buffer,[] => (true,buffer)
  | [],_ :: _ => (false,[])
  | old :: buffer,j :: branch =>
    match branchEntry j with
    | none => (false,old :: buffer)
    | some s =>
      let r := writeBranch buffer branch
      (r.1,(hex2bin old s.val).2 :: r.2)

/-- The branch buffer, replaced when it is too small. What a new one holds is
written before it is counted. -/
def branchBuffer (merkle : List (Fixed 32)) (n : Nat) : List (Fixed 32) :=
  if merkle.length < n then List.replicate n (Fixed.zero 32) else merkle

/-- `realloc`: what a block grows by is whatever the heap held there. -/
def realloc (heap : Nat → UInt8) (old : Bytes) (n : Nat) : Bytes :=
  old.take n ++ (List.range (n-old.length)).map heap

/-- The coinbase of a notify, laid over the one before it. A half of odd length is
refused by the decoder and keeps the bytes that were there. -/
def layCoinbase (heap : Nat → UInt8) (c : StratumCtx) (q : CoinbaseNotify) : Bytes :=
  let n₁ := q.coinb1.length/2
  let n₂ := q.coinb2.length/2
  let at₂ := n₁+c.xnonce1.length
  let base := realloc heap c.job.coinbase (at₂+c.xnonce2Size+n₂)
  let xnonce2 :=
    if c.job.jobId = some q.jobId then (base.drop at₂).take c.xnonce2Size
    else List.replicate c.xnonce2Size 0
  (hex2bin (Fixed.fill n₁ base) q.coinb1).2.val ++ c.xnonce1 ++ xnonce2 ++
    (hex2bin (Fixed.fill n₂ (base.drop (at₂+c.xnonce2Size))) q.coinb2).2.val

def writeVersion (c : StratumCtx) (q : CoinbaseNotify) : StratumCtx :=
  { c with job := { c.job with version := (hex2bin c.job.version q.version.val).2 } }

def takeCoinbaseNotify (heap : Nat → UInt8) (c : StratumCtx) (q : CoinbaseNotify) :
    Option NotifyRefusal × StratumCtx :=
  let r := writeBranch (branchBuffer c.job.merkle q.branch.length) q.branch
  if r.1 = false then
    (some .badBranchEntry,{ c with job := { c.job with merkle := r.2, merkleCount := 0 } })
  else
    let coinbase := layCoinbase heap c q
    (none,
      { c with
        blockHeight := getblocheight coinbase
        job :=
          { c.job with
            merkle := r.2
            merkleCount := q.branch.length
            coinbase := coinbase
            xnonce2 := q.coinb1.length/2+c.xnonce1.length
            jobId := some q.jobId
            prevhash := (hex2bin c.job.prevhash q.prevhash.val).2
            extra :=
              match q.claim with
              | some claim => (hex2bin c.job.extra claim.val).2
              | none => c.job.extra
            nbits := (hex2bin c.job.nbits q.nbits.val).2
            ntime := (hex2bin c.job.ntime q.ntime.val).2
            clean := q.clean
            diff := c.nextDiff } })

def stratumBitcoinNotify (d : Dialect) (heap : Nat → UInt8) (c : StratumCtx)
    (params : Option Json) : Option NotifyRefusal × StratumCtx :=
  match readCoinbaseNotify d params with
  | .error e => (some e,c)
  | .ok q => takeCoinbaseNotify heap (writeVersion c q) q

structure ProgpowNotify where
  jobId : CStr
  headerHash : HexText 32
  seedHash : HexText 32
  target : Option (List UInt32)
  clean : Bool
  height : Nat
  nbits : Nat

def readProgpowNotify (params : Option Json) : Except NotifyRefusal ProgpowNotify :=
  let str (i : Nat) := jsonStringValue (jsonArrayGet params i)
  match str 0,str 1,str 2 with
  | some jobId,some headerHash,some seedHash =>
    if h : headerHash.length = 64 ∧ seedHash.length = 64 then
      match parseUintField (jsonArrayGet params 5) with
      | none => .error .noHeight
      | some height =>
        .ok ⟨jobId,⟨headerHash,h.1⟩,⟨seedHash,h.2⟩,parseTargetHex (str 3),
          jsonIsTrue (jsonArrayGet params 4),height,
          (parseUintField (jsonArrayGet params 6)).getD 0⟩
    else .error .invalidProgpow
  | _,_,_ => .error .invalidProgpow

def be32enc (x : UInt32) : Fixed 4 := ⟨ByteOrder.beBytes x,rfl⟩

/-- What is written, whether or not a target turns up. -/
def takeProgpowNotify (c : StratumCtx) (q : ProgpowNotify) : StratumCtx :=
  { c with
    blockHeight := UInt32.ofNat q.height
    job :=
      { c.job with
        jobId := some q.jobId
        headerHash := (hex2bin c.job.headerHash q.headerHash.val).2
        seedHash := (hex2bin c.job.seedHash q.seedHash.val).2
        nbits := be32enc (UInt32.ofNat q.nbits)
        clean := q.clean
        diff := c.nextDiff
        target :=
          match q.target with
          | some t => t
          | none => if c.haveNextTarget then c.nextTarget else c.job.target
        haveTarget := q.target.isSome || c.haveNextTarget } }

def stratumProgpowNotify (c : StratumCtx) (params : Option Json) :
    Option NotifyRefusal × StratumCtx :=
  match readProgpowNotify params with
  | .error e => (some e,c)
  | .ok q =>
    let c' := takeProgpowNotify c q
    (if c'.job.haveTarget then none else some .noTarget,c')

/-- The dialect is the algorithm's answer; the packet is not asked. -/
def stratumNotify (d : Dialect) (heap : Nat → UInt8) (c : StratumCtx) (params : Option Json) :
    Option NotifyRefusal × StratumCtx :=
  if d = .progpow then stratumProgpowNotify c params
  else stratumBitcoinNotify d heap c params

structure JobView where
  jobId : Option CStr
  version : Fixed 4
  prevhash : Fixed 32
  coinbase : Bytes
  xnonce2 : Nat
  branch : List (Fixed 32)
  merkleCount : Nat
  nbits : Fixed 4
  ntime : Fixed 4
  headerHash : Fixed 32
  seedHash : Fixed 32
  height : UInt32
  target : List UInt32
  clean : Bool
  diff : Rat
  deriving DecidableEq

def StratumCtx.view (c : StratumCtx) : JobView where
  jobId := c.job.jobId
  version := c.job.version
  prevhash := c.job.prevhash
  coinbase := c.job.coinbase
  xnonce2 := c.job.xnonce2
  branch := c.job.branch
  merkleCount := c.job.merkleCount
  nbits := c.job.nbits
  ntime := c.job.ntime
  headerHash := c.job.headerHash
  seedHash := c.job.seedHash
  height := c.blockHeight
  target := c.job.target
  clean := c.job.clean
  diff := c.job.diff

/-- A refused notify leaves the job as it was. -/
def KeepsJob (d : Dialect) (heap : Nat → UInt8) (c : StratumCtx) (params : Option Json) : Prop :=
  (stratumNotify d heap c params).1 ≠ none →
    (stratumNotify d heap c params).2.view = c.view

theorem writeBranch_accepts {buffer : List (Fixed 32)} {branch : List Json}
    (h : branch.length ≤ buffer.length) :
    (writeBranch buffer branch).1 = branch.all (fun j => (branchEntry j).isSome) := by
  induction branch generalizing buffer with
  | nil => simp [writeBranch]
  | cons j branch ih =>
    cases buffer with
    | nil => simp at h
    | cons old buffer =>
      have hlen : branch.length ≤ buffer.length := by simpa using h
      cases hj : branchEntry j with
      | none => simp [writeBranch,hj]
      | some s => simp [writeBranch,hj,ih hlen]

theorem branchBuffer_length (merkle : List (Fixed 32)) (n : Nat) :
    n ≤ (branchBuffer merkle n).length := by
  unfold branchBuffer
  split
  · simp
  · omega

def CoinbaseNotify.refusedLate (q : CoinbaseNotify) : Bool :=
  !q.branch.all (fun j => (branchEntry j).isSome)

/-- What the refused job has to agree with the current one in, for the refusal to
leave no trace. -/
def RefusedCleanly (d : Dialect) (c : StratumCtx) (params : Option Json) : Prop :=
  if d = .progpow then
    match readProgpowNotify params with
    | .error _ => True
    | .ok q =>
      q.target = none → c.haveNextTarget = false →
        c.job.jobId = some q.jobId ∧ c.job.headerHash = hexField q.headerHash ∧
        c.job.seedHash = hexField q.seedHash ∧
        c.job.nbits = be32enc (UInt32.ofNat q.nbits) ∧
        c.blockHeight = UInt32.ofNat q.height ∧ c.job.clean = q.clean ∧
        c.job.diff = c.nextDiff
  else
    match readCoinbaseNotify d params with
    | .error _ => True
    | .ok q =>
      q.refusedLate = true → c.job.version = hexField q.version ∧ c.job.merkleCount = 0

theorem keepsJob_progpow (heap : Nat → UInt8) (c : StratumCtx) (params : Option Json) :
    KeepsJob .progpow heap c params ↔ RefusedCleanly .progpow c params := by
  unfold KeepsJob RefusedCleanly stratumNotify stratumProgpowNotify
  simp only [if_true]
  cases hr : readProgpowNotify params with
  | error e => simp
  | ok q =>
    cases ht : q.target with
    | some t => simp [takeProgpowNotify,ht]
    | none =>
      cases hn : c.haveNextTarget with
      | true => simp [takeProgpowNotify,ht,hn]
      | false =>
        simp only [takeProgpowNotify,ht,hn,StratumCtx.view,StratumJob.branch,hex2bin_exact,
          JobView.mk.injEq,Option.isSome_none,Bool.or_self,Bool.false_eq_true,if_false,ne_eq,
          reduceCtorEq,not_false_eq_true,true_imp_iff,true_and]
        constructor
        · rintro ⟨h₁,h₂,h₃,h₄,h₅,h₆,h₇⟩
          exact ⟨h₁.symm,h₃.symm,h₄.symm,h₂.symm,h₅.symm,h₆.symm,h₇.symm⟩
        · rintro ⟨h₁,h₂,h₃,h₄,h₅,h₆,h₇⟩
          exact ⟨h₁.symm,h₄.symm,h₂.symm,h₃.symm,h₅.symm,h₆.symm,h₇.symm⟩

theorem keepsJob_coinbase {d : Dialect} (hd : d ≠ .progpow) (heap : Nat → UInt8)
    (c : StratumCtx) (params : Option Json) :
    KeepsJob d heap c params ↔ RefusedCleanly d c params := by
  unfold KeepsJob RefusedCleanly stratumNotify stratumBitcoinNotify
  simp only [hd,if_false]
  cases hr : readCoinbaseNotify d params with
  | error e => simp
  | ok q =>
    have hw := writeBranch_accepts (branchBuffer_length c.job.merkle q.branch.length)
    cases hl : q.refusedLate with
    | false =>
      have hall : q.branch.all (fun j => (branchEntry j).isSome) = true := by
        simpa [CoinbaseNotify.refusedLate] using hl
      simp [takeCoinbaseNotify,writeVersion,hw,hall,hl]
    | true =>
      have hall : q.branch.all (fun j => (branchEntry j).isSome) = false := by
        simpa [CoinbaseNotify.refusedLate] using hl
      simp only [takeCoinbaseNotify,writeVersion,hw,hall,hl,hex2bin_exact,StratumCtx.view,
        StratumJob.branch,JobView.mk.injEq,if_true,ne_eq,reduceCtorEq,not_false_eq_true,true_imp_iff,true_and,
        and_true,List.take_zero]
      constructor
      · rintro ⟨h₁,-,h₂⟩
        exact ⟨h₁.symm,h₂.symm⟩
      · rintro ⟨h₁,h₂⟩
        exact ⟨h₁.symm,by rw [h₂,List.take_zero],h₂.symm⟩

/-- A notify that is refused leaves the job alone exactly when it is refused
before the first write, or writes what is there already. -/
theorem refused_notify_keeps_job_iff (d : Dialect) (heap : Nat → UInt8) (c : StratumCtx)
    (params : Option Json) : KeepsJob d heap c params ↔ RefusedCleanly d c params := by
  by_cases hd : d = .progpow
  · subst hd
    exact keepsJob_progpow heap c params
  · exact keepsJob_coinbase hd heap c params

def word64 (digit : Char) : CStr := List.replicate 64 (UInt8.ofNat digit.toNat)

def plainNotify (jobId version entry : CStr) : Option Json :=
  some (.array [.string jobId,.string (word64 '1'),.string (ascii "01"),.string (ascii "02"),
    .array [.string entry],.string version,.string (ascii "1d00ffff"),
    .string (ascii "5f000000"),.bool true])

/-- A version that nobody announced is mined on, and the branch is lost. -/
theorem refused_notify_moves_job :
    ¬ ∀ (d : Dialect) (heap : Nat → UInt8) (c : StratumCtx) (params : Option Json),
      KeepsJob d heap c params := by
  intro h
  have hk := h .bitcoin (fun _ => 0)
    (stratumNotify .bitcoin (fun _ => 0) .zero
      (plainNotify (ascii "a") (ascii "20000000") (word64 '2'))).2
    (plainNotify (ascii "b") (ascii "30000000") (ascii "short")) (by decide)
  have hv := congrArg (fun v => (v.version.val,v.merkleCount)) hk
  exact absurd hv (by decide)

end VkMiner.Stratum
