import Mathlib.Algebra.Group.Nat.Defs
import VkMiner.Scheduler.NonceRange
import VkMiner.Stratum.Method
set_option autoImplicit false

/-! A ProgPoW share from the pool's notify to the request it goes out in: the parser, the
generator of `g_work`, the workers that walk the nonces, and the hash of a solution. -/

namespace VkMiner.Scheduler.Seals
open ByteOrder Runs Stratum

def nonceBits : Nat := 48

def kawpow (user : CStr) : Settings := ⟨.progpow,nonceBits,user⟩

/-- `progpow::hash`, of an epoch's table, a height's program, the words of a header and a nonce:
the mix and the digest, or none where the table cannot be built. -/
structure ProgPow where
  epochOf : Nat → Nat
  hash : Nat → Nat → List UInt32 → UInt64 → Option (List UInt32 × List UInt32)

def headerWords (header : List UInt32) : List UInt32 := leWords (encode (header.take 8))

def heightOf (header : List UInt32) : Nat := (header.getD 8 0).toNat

def fullHash (p : ProgPow) (epoch : Nat) (header : List UInt32) (nonce : UInt64) :
    Option (List UInt32 × List UInt32) :=
  p.hash epoch (heightOf header) (headerWords header) nonce

def bswap32 (x : UInt32) : UInt32 := (beWords (leBytes x)).headD 0

def digestWords (digest : List UInt32) : List UInt32 := digest.reverse.map bswap32

def atMost : List UInt32 → List UInt32 → Bool
  | h :: hash,t :: target => if t < h then false else if h < t then true else atMost hash target
  | _,_ => true

def fulltest (hash target : List UInt32) : Bool := atMost hash.reverse target.reverse

/-- Where there is no hash its words are zero. -/
def verify (p : ProgPow) (epoch : Nat) (header : List UInt32) (nonce : UInt64)
    (target : List UInt32) : Bool :=
  match fullHash p epoch header nonce with
  | some out => fulltest (digestWords out.2) target
  | none => fulltest (List.replicate 8 0) target

def mixBytes (mix : List UInt32) : Bytes := mix.flatMap leBytes

def submitMix (p : ProgPow) (epoch : Nat) (header : List UInt32) (nonce : UInt64) :
    Option Bytes :=
  (fullHash p epoch header nonce).map fun out => mixBytes out.1

def nonceBase (xnonce1 : Bytes) : UInt64 :=
  (List.range (Nat.min xnonce1.length 8)).foldl
    (fun base i => base ||| (xnonce1.getD i 0).toUInt64 <<< UInt64.ofNat (56-i*8)) 0

/-- What a worker, or `g_work`, holds of a ProgPoW job. -/
structure PowWork where
  work : Work
  target : List UInt32
  nonceBase : UInt64
  deriving DecidableEq

/-- A worker with its algorithm's epoch and the dispatches it has launched under its job, as
their first nonces and how many. -/
structure Worker where
  work : Option PowWork
  epoch : Nat
  nonce : Nat
  launched : List (Nat × Nat)

/-- A notify that was accepted, with the prefix that the pool had assigned and the target that
it had set before. -/
structure Issued where
  notify : ProgpowNotify
  noncePrefix : CStr
  stated : Option (List UInt32)

/-- A request with the nonce its worker had walked to, and the target that was met. -/
structure Share where
  submission : Submission
  walked : Nat
  target : List UInt32
  deriving DecidableEq

/-- `assigned` and `stated` are the last prefix and the last target that were taken from the
pool; these, `accepted` and `shares` are history. -/
structure Rig where
  ctx : StratumCtx
  assigned : Option CStr
  stated : Option (List UInt32)
  gWork : Option PowWork
  workers : Nat → Worker
  accepted : List Issued
  shares : List Share

inductive Event where
  | subscribed (line : Option Json)
  | notify (params : Option Json)
  | setTarget (params : Option Json)
  | setDifficulty (params : Option Json)
  | setExtranonce (params : Option Json)
  | publishes
  | copies (i : Nat)
  | dispatches (i : Nat) (batch : UInt32) (ok : Bool)
  | solves (i d k id : Nat)

def genWork (c : StratumCtx) (jobId : CStr) : PowWork :=
  ⟨progpowGenWork c jobId,c.job.target,nonceBase c.xnonce1⟩

namespace Rig

def set (m : Rig) (i : Nat) (w : Worker) : Rig :=
  { m with workers := Function.update m.workers i w }

def start (n : Nat) : Rig where
  ctx := .zero
  assigned := none
  stated := none
  gWork := none
  workers i := ⟨none,0,firstNonce n nonceBits i,[]⟩
  accepted := []
  shares := []

def assigns (m : Rig) (r : Bool × StratumCtx) (text : Option CStr) : Rig :=
  { m with ctx := r.2, assigned := if r.1 then text else m.assigned }

def dispatch (n : Nat) (m : Rig) (i : Nat) (batch : UInt32) (ok : Bool) : Rig :=
  let w := m.workers i
  let b := clampedBatch (endNonce n nonceBits i) w.nonce batch
  if b = 0 then m.set i { w with nonce := firstNonce n nonceBits i }
  else if ok then
    m.set i { w with nonce := w.nonce+b, launched := w.launched ++ [(w.nonce,b)] }
  else m

/-- A solution of the device, hashed again and sent on its way. One that does not meet the
target, or has no mix, is dropped. -/
def reap (p : ProgPow) (user : CStr) (m : Rig) (epoch : Nat) (w : PowWork) (first k id : Nat) :
    Rig :=
  let nonce := (w.nonceBase ||| UInt64.ofNat first)+UInt64.ofNat k
  if verify p epoch w.work.data nonce w.target then
    match submitMix p epoch w.work.data nonce with
    | none => m
    | some mix =>
      { m with
        shares := m.shares ++
          [⟨progpowBuildStratumRequest user w.work nonce mix id,first+k,w.target⟩] }
  else m

def notify (m : Rig) (noncePrefix : CStr) (params : Option Json) : Rig :=
  let r := stratumProgpowNotify m.ctx params
  match r.1,readProgpowNotify params with
  | none,.ok q =>
    { m with
      ctx := { r.2 with newJob := true }
      accepted := m.accepted ++ [⟨q,noncePrefix,m.stated⟩] }
  | _,_ => { m with ctx := r.2 }

def setTarget (opt : Options) (user : CStr) (m : Rig) (params : Option Json) : Rig :=
  let r := stratumSetTarget opt (kawpow user) m.ctx params
  { m with
    ctx := r.2
    stated := if r.1 then parseTargetHex (jsonStringValue (jsonArrayGet params 0)) else m.stated }

def setDifficulty (m : Rig) (params : Option Json) : Rig :=
  { m with ctx := (stratumSetDifficulty m.ctx params).2 }

def publish (m : Rig) (jobId : CStr) : Rig :=
  { m with ctx := { m.ctx with newJob := false }, gWork := some (genWork m.ctx jobId) }

/-- One atomic step, of a miner with `n` workers. Nothing is read from a pool before the answer
to the subscribe. -/
def step (opt : Options) (p : ProgPow) (user : CStr) (n : Nat) (m : Rig) (e : Event) :
    Option Rig :=
  match e,m.assigned with
  | .subscribed line,_ =>
    some (m.assigns (readSubscribed (kawpow user) m.ctx line)
      (jsonStringValue (jsonArrayGet (jsonObjectGet line (ascii "result")) 1)))
  | .notify params,some noncePrefix => some (m.notify noncePrefix params)
  | .setTarget params,some _ => some (m.setTarget opt user params)
  | .setDifficulty params,some _ => some (m.setDifficulty params)
  | .setExtranonce params,some _ =>
    some (m.assigns (stratumParseNoncePrefix (kawpow user) m.ctx params 0)
      (jsonStringValue (jsonArrayGet params 0)))
  | .publishes,_ =>
    match m.ctx.newJob,m.ctx.job.jobId with
    | true,some jobId => some (m.publish jobId)
    | _,_ => none
  | .copies i,_ =>
    match m.gWork with
    | some w =>
      if i < n then
        some (m.set i ⟨some w,p.epochOf (heightOf w.work.data),firstNonce n nonceBits i,[]⟩)
      else none
    | none => none
  | .dispatches i batch ok,_ =>
    if i < n ∧ (m.workers i).work.isSome then some (m.dispatch n i batch ok) else none
  | .solves i d k id,_ =>
    match (m.workers i).work,(m.workers i).launched[d]? with
    | some w,some (first,b) =>
      if i < n ∧ k < b then some (m.reap p user (m.workers i).epoch w first k id) else none
    | _,_ => none
  | _,none => none

end Rig

def lower (s : CStr) : CStr := s.map tolower

def beNumber (b : Bytes) : Nat := b.foldl (fun n x => n*256+x.toNat) 0

def walkBytes (walked : Nat) : Bytes :=
  (List.range 6).map fun i => UInt8.ofNat (walked >>> (8*(5-i)))

namespace Issued

/-- The job's own target, or else the last that was set. -/
def target (a : Issued) : Option (List UInt32) := a.notify.target <|> a.stated

def nonceBytes (a : Issued) (walked : Nat) : Bytes := hexBytes a.noncePrefix ++ walkBytes walked

def hash (p : ProgPow) (a : Issued) (walked : Nat) : Option (List UInt32 × List UInt32) :=
  p.hash (p.epochOf a.notify.height) a.notify.height (leWords (hexBytes a.notify.headerHash.val))
    (UInt64.ofNat (beNumber (a.nonceBytes walked)))

end Issued

/-- The share is one of the notify `a`: every field as the pool wrote it, or as the hash of
what it wrote gave it. -/
structure Share.From (p : ProgPow) (a : Issued) (s : Share) : Prop where
  jobId : s.submission.jobId = a.notify.jobId
  walked : s.walked < 2^nonceBits
  nonce : s.submission.xnonce2 = ascii "0x" ++ lower a.noncePrefix ++ bin2hex (walkBytes s.walked)
  header : s.submission.ntime = ascii "0x" ++ lower a.notify.headerHash.val
  target : a.target = some s.target
  mix : ∃ out, a.hash p s.walked = some out ∧
    s.submission.nonce = ascii "0x" ++ bin2hex (mixBytes out.1) ∧
    fulltest (digestWords out.2) s.target = true

namespace Rig

/-- What a notify is taken for: its header is digits of hex and its height of 32 bits. One that
is refused for the want of a target does not come between a notify and its job. -/
def takesWell (m : Rig) (params : Option Json) : Prop :=
  ∀ q ∈ (readProgpowNotify params).toOption,
    if q.target.isSome ∨ m.ctx.haveNextTarget = true then
      (hexPairs q.headerHash.val).1 = true ∧ q.height < 2^32
    else m.ctx.newJob = false

/-- What a prefix is taken for: digits of hex, and not between a notify and its job. -/
def assignsWell (m : Rig) (r : Bool × StratumCtx) (text : Option CStr) : Prop :=
  r.1 = true → m.ctx.newJob = false ∧ ∀ t ∈ text, (hexPairs t).1 = true

/-- The condition on a step: what the pool sends is spelt as it should be, and a notify's job
is published before another message gets at it. -/
def InOrder (user : CStr) (m : Rig) (e : Event) : Prop :=
  match e with
  | .subscribed line =>
    m.assignsWell (readSubscribed (kawpow user) m.ctx line)
      (jsonStringValue (jsonArrayGet (jsonObjectGet line (ascii "result")) 1))
  | .notify params => m.takesWell params
  | .setExtranonce params =>
    m.assignsWell (stratumParseNoncePrefix (kawpow user) m.ctx params 0)
      (jsonStringValue (jsonArrayGet params 0))
  | _ => True

instance (m : Rig) (r : Bool × StratumCtx) (text : Option CStr) : Decidable (m.assignsWell r text) :=
  inferInstanceAs (Decidable (_ → _))

instance (m : Rig) (params : Option Json) : Decidable (m.takesWell params) :=
  inferInstanceAs (Decidable (∀ q ∈ (readProgpowNotify params).toOption, _))

instance (user : CStr) (m : Rig) (e : Event) : Decidable (InOrder user m e) := by
  unfold InOrder
  split <;> infer_instance

end Rig

/-- A header of the right length comes back as it was, in lower case. -/
theorem bin2hex_hexBytes {s : CStr} (h : (hexPairs s).1 = true) (he : s.length%2 = 0) :
    bin2hex (hexBytes s) = lower s := by
  rw [hexBytes_pairs h he,bin2hex_hexPairs h he,lower]

theorem or_top {i x y : Nat} (h : y < 2^i) : x*2^i ||| y = x*2^i+y := by
  rw [Nat.mul_comm]
  exact (Nat.two_pow_add_eq_or_of_lt h x).symm

theorem nonceBase_pair (a b : UInt8) :
    (nonceBase [a,b]).toNat = (a.toNat*256+b.toNat)*2^48 := by
  have ha := a.toNat_lt
  have hb := b.toNat_lt
  have hbase : nonceBase [a,b] = ((0 : UInt64) ||| a.toUInt64 <<< 56) ||| b.toUInt64 <<< 48 := rfl
  have ha' : (a.toUInt64 <<< 56).toNat = a.toNat*2^56 := by
    rw [UInt64.toNat_shiftLeft,Nat.shiftLeft_eq]
    exact Nat.mod_eq_of_lt (by simp; omega)
  have hb' : (b.toUInt64 <<< 48).toNat = b.toNat*2^48 := by
    rw [UInt64.toNat_shiftLeft,Nat.shiftLeft_eq]
    exact Nat.mod_eq_of_lt (by simp; omega)
  rw [hbase,UInt64.toNat_or,UInt64.toNat_or,ha',hb',UInt64.toNat_zero,Nat.zero_or,
    or_top (by omega)]
  omega

theorem nonce_split {a b : UInt8} {first k : Nat} (h : first+k < 2^nonceBits) :
    ((nonceBase [a,b] ||| UInt64.ofNat first)+UInt64.ofNat k).toNat =
      (a.toNat*256+b.toNat)*2^48+(first+k) := by
  have ha := a.toNat_lt
  have hb := b.toNat_lt
  have hn : first+k < 2^48 := h
  have hf : (UInt64.ofNat first).toNat = first := by
    rw [UInt64.toNat_ofNat']
    exact Nat.mod_eq_of_lt (by omega)
  have hk : (UInt64.ofNat k).toNat = k := by
    rw [UInt64.toNat_ofNat']
    exact Nat.mod_eq_of_lt (by omega)
  rw [UInt64.toNat_add,UInt64.toNat_or,nonceBase_pair,hf,hk,or_top (by omega)]
  omega

theorem be64Bytes_split {a b : UInt8} {x : UInt64} {w : Nat} (hw : w < 2^nonceBits)
    (h : x.toNat = (a.toNat*256+b.toNat)*2^48+w) : be64Bytes x = [a,b] ++ walkBytes w := by
  have hb := b.toNat_lt
  have hn : w < 2^48 := hw
  have hsplit : be64Bytes x = [UInt8.ofNat (x.toNat >>> 56),UInt8.ofNat (x.toNat >>> 48)] ++
      (List.range 6).map fun i => UInt8.ofNat (x.toNat >>> (8*(5-i))) := rfl
  have htop : UInt8.ofNat (x.toNat >>> 56) = a := by
    refine uint8_ofNat_eq ?_
    have := a.toNat_lt
    rw [Nat.shiftRight_eq_div_pow,h]
    omega
  have hnext : UInt8.ofNat (x.toNat >>> 48) = b := by
    refine uint8_ofNat_eq ?_
    rw [Nat.shiftRight_eq_div_pow,h]
    omega
  rw [hsplit,htop,hnext,walkBytes]
  congr 1
  refine List.map_congr_left fun i hi => uint8_ofNat_eq ?_
  have hi := List.mem_range.mp hi
  rw [UInt8.toNat_ofNat',Nat.shiftRight_eq_div_pow,Nat.shiftRight_eq_div_pow,h]
  have hcases : i = 0 ∨ i = 1 ∨ i = 2 ∨ i = 3 ∨ i = 4 ∨ i = 5 := by omega
  rcases hcases with rfl | rfl | rfl | rfl | rfl | rfl <;> omega

theorem beNumber_split {a b : UInt8} {w : Nat} (hw : w < 2^nonceBits) :
    beNumber ([a,b] ++ walkBytes w) = (a.toNat*256+b.toNat)*2^48+w := by
  have hn : w < 2^48 := hw
  have hwalk : walkBytes w = [UInt8.ofNat (w >>> 40),UInt8.ofNat (w >>> 32),UInt8.ofNat (w >>> 24),
      UInt8.ofNat (w >>> 16),UInt8.ofNat (w >>> 8),UInt8.ofNat (w >>> 0)] := rfl
  rw [hwalk]
  simp only [beNumber,List.cons_append,List.nil_append,List.foldl_cons,List.foldl_nil,
    UInt8.toNat_ofNat',Nat.shiftRight_eq_div_pow]
  omega

structure Issued.Plain (a : Issued) : Prop where
  header : (hexPairs a.notify.headerHash.val).1 = true
  height : a.notify.height < 2^32
  length : a.noncePrefix.length = 4
  noncePrefix : (hexPairs a.noncePrefix).1 = true

/-- The job that a notify has been written to, up to its being published. -/
structure Issued.Pending (a : Issued) (c : StratumCtx) : Prop where
  jobId : c.job.jobId = some a.notify.jobId
  header : c.job.headerHash = hexField a.notify.headerHash
  height : c.blockHeight = UInt32.ofNat a.notify.height
  target : a.target = some c.job.target
  xnonce1 : c.xnonce1 = hexBytes a.noncePrefix

structure PowWork.Of (a : Issued) (w : PowWork) : Prop where
  work : w.work = ⟨beWords (hexBytes a.notify.headerHash.val) ++ [UInt32.ofNat a.notify.height],
    a.notify.jobId,[]⟩
  target : a.target = some w.target
  nonceBase : w.nonceBase = Seals.nonceBase (hexBytes a.noncePrefix)

structure Worker.Busy (p : ProgPow) (n i : Nat) (accepted : List Issued) (w : Worker) : Prop where
  work : ∀ x, w.work = some x →
    (∃ a ∈ accepted, x.Of a) ∧ w.epoch = p.epochOf (heightOf x.work.data)
  nonce : w.nonce ≤ endNonce n nonceBits i
  launched : ∀ d ∈ w.launched, d.1+d.2 ≤ endNonce n nonceBits i

/-- Everything that is held of a job is of one notify. -/
structure Sealed (p : ProgPow) (n : Nat) (m : Rig) : Prop where
  assigned : ∀ t, m.assigned = some t →
    m.ctx.xnonce1 = hexBytes t ∧ t.length = 4 ∧ (hexPairs t).1 = true
  stated : m.ctx.haveNextTarget = m.stated.isSome ∧ ∀ t, m.stated = some t → m.ctx.nextTarget = t
  plain : ∀ a ∈ m.accepted, a.Plain
  pending : m.ctx.newJob = true → ∃ a ∈ m.accepted, a.Pending m.ctx
  gWork : ∀ w, m.gWork = some w → ∃ a ∈ m.accepted, w.Of a
  workers : ∀ i < n, (m.workers i).Busy p n i m.accepted
  shares : ∀ s ∈ m.shares, ∃ a ∈ m.accepted, s.From p a

/-- What taking a prefix, or not, moves of a session. -/
structure Assigns (c : StratumCtx) (r : Bool × StratumCtx) (text : Option CStr) : Prop where
  job : r.2.job = c.job
  newJob : r.2.newJob = c.newJob
  height : r.2.blockHeight = c.blockHeight
  stated : r.2.haveNextTarget = c.haveNextTarget ∧ r.2.nextTarget = c.nextTarget
  taken : r.1 = true → ∃ t, text = some t ∧ t.length = 4 ∧ r.2.xnonce1 = hexBytes t
  kept : r.1 = false → r.2.xnonce1 = c.xnonce1

variable {opt : Options} {p : ProgPow} {user : CStr} {n : Nat} {m m' : Rig} {e : Event}
  {c : StratumCtx} {params : Option Json} {r : Bool × StratumCtx} {text : Option CStr}

theorem parseNoncePrefix_assigns (user : CStr) (c : StratumCtx) (params : Option Json)
    (pndx : Nat) : Assigns c (stratumParseNoncePrefix (kawpow user) c params pndx)
      (jsonStringValue (jsonArrayGet params pndx)) := by
  unfold stratumParseNoncePrefix
  cases ht : jsonStringValue (jsonArrayGet params pndx) with
  | none => exact ⟨rfl,rfl,rfl,⟨rfl,rfl⟩,nofun,fun _ => rfl⟩
  | some t =>
    have hwant : (64-(kawpow user).nonceBits)/8 = 2 := by simp [kawpow,nonceBits]
    by_cases hlen : t.length = (64-(kawpow user).nonceBits)/8*2
    · simp only [hlen,ne_eq,not_true,if_false]
      have hl : t.length = 2*((64-(kawpow user).nonceBits)/8) := hlen.trans (Nat.mul_comm _ _)
      refine ⟨rfl,rfl,rfl,⟨rfl,rfl⟩,fun _ => ⟨t,rfl,by rw [hlen,hwant],?_⟩,nofun⟩
      have he := congrArg Subtype.val
        (hex2bin_exact (Fixed.zero ((64-(kawpow user).nonceBits)/8)) ⟨t,hl⟩)
      exact he.trans (hexField_val ⟨t,hl⟩)
    · simp only [hlen,ne_eq,not_false_eq_true,if_true]
      exact ⟨rfl,rfl,rfl,⟨rfl,rfl⟩,nofun,fun _ => rfl⟩

theorem readSubscribed_assigns (user : CStr) (c : StratumCtx) (line : Option Json) :
    Assigns c (readSubscribed (kawpow user) c line)
      (jsonStringValue (jsonArrayGet (jsonObjectGet line (ascii "result")) 1)) := by
  unfold readSubscribed
  simp only
  split
  · exact ⟨rfl,rfl,rfl,⟨rfl,rfl⟩,nofun,fun _ => rfl⟩
  · have h := parseNoncePrefix_assigns user { c with nextDiff := 1 }
      (jsonObjectGet line (ascii "result")) 1
    exact ⟨h.job,h.newJob,h.height,h.stated,h.taken,h.kept⟩

theorem Sealed.start (hn : 0 < n ∧ n ≤ 9999) : Sealed p n (Rig.start n) where
  assigned := nofun
  stated := ⟨rfl,nofun⟩
  plain := nofun
  pending := nofun
  gWork := nofun
  workers _ hi := ⟨nofun,firstNonce_le_endNonce hn (.inr rfl) hi,nofun⟩
  shares := nofun

theorem Issued.Pending.beside {a : Issued} {c c' : StratumCtx} (h : a.Pending c)
    (hj : c'.job = c.job) (hb : c'.blockHeight = c.blockHeight) (hx : c'.xnonce1 = c.xnonce1) :
    a.Pending c' :=
  ⟨(congrArg StratumJob.jobId hj).trans h.jobId,(congrArg StratumJob.headerHash hj).trans h.header,
    hb.trans h.height,h.target.trans (congrArg (fun j => some j.target) hj).symm,hx.trans h.xnonce1⟩

theorem Sealed.assigns (hi : Sealed p n m) (ha : Assigns m.ctx r text)
    (ho : m.assignsWell r text) : Sealed p n (m.assigns r text) := by
  refine ⟨fun t ht => ?_,?_,hi.plain,fun hnew => ?_,hi.gWork,hi.workers,hi.shares⟩
  · cases hr : r.1 with
    | false =>
      simp only [Rig.assigns,hr] at ht ⊢
      rw [ha.kept hr]
      exact hi.assigned t ht
    | true =>
      obtain ⟨t',htext,hlen,hx⟩ := ha.taken hr
      simp only [Rig.assigns,hr,if_true] at ht ⊢
      obtain rfl : t' = t := Option.some.inj (htext.symm.trans ht)
      exact ⟨hx,hlen,(ho hr).2 _ htext⟩
  · exact ⟨ha.stated.1.trans hi.stated.1,fun t ht => ha.stated.2.trans (hi.stated.2 t ht)⟩
  · have hold : m.ctx.newJob = true := ha.newJob.symm.trans hnew
    have hr : r.1 = false := by
      cases hr : r.1 with
      | false => rfl
      | true => exact absurd hold (by rw [(ho hr).1]; decide)
    obtain ⟨a,hmem,hp⟩ := hi.pending hold
    exact ⟨a,hmem,hp.beside ha.job ha.height (ha.kept hr)⟩

theorem Sealed.keeps (hi : Sealed p n m) {c : StratumCtx} (hx : c.xnonce1 = m.ctx.xnonce1)
    (hs : c.haveNextTarget = m.ctx.haveNextTarget ∧ c.nextTarget = m.ctx.nextTarget)
    (hp : c.newJob = true → ∃ a ∈ m.accepted, a.Pending c) : Sealed p n { m with ctx := c } :=
  ⟨fun t ht => ⟨hx.trans (hi.assigned t ht).1,(hi.assigned t ht).2⟩,
    ⟨hs.1.trans hi.stated.1,fun t ht => hs.2.trans (hi.stated.2 t ht)⟩,hi.plain,hp,hi.gWork,
    hi.workers,hi.shares⟩

theorem Worker.Busy.later {accepted : List Issued} {i : Nat} {w : Worker} (a : Issued)
    (h : w.Busy p n i accepted) : w.Busy p n i (accepted ++ [a]) := by
  refine ⟨fun x hx => ?_,h.nonce,h.launched⟩
  obtain ⟨⟨b,hb,ho⟩,he⟩ := h.work x hx
  exact ⟨⟨b,List.mem_append_left _ hb,ho⟩,he⟩

theorem pending_taken {q : ProgpowNotify} {noncePrefix : CStr} {stated : Option (List UInt32)}
    (hx : c.xnonce1 = hexBytes noncePrefix)
    (hs : c.haveNextTarget = stated.isSome ∧ ∀ t, stated = some t → c.nextTarget = t)
    (hh : (takeProgpowNotify c q).job.haveTarget = true) :
    Issued.Pending ⟨q,noncePrefix,stated⟩ { takeProgpowNotify c q with newJob := true } := by
  refine ⟨rfl,hex2bin_exact _ _,rfl,?_,hx⟩
  cases ht : q.target with
  | some t => simp [Issued.target,takeProgpowNotify,ht]
  | none =>
    have hn : c.haveNextTarget = true := by simpa [takeProgpowNotify,ht] using hh
    cases hst : stated with
    | none =>
      rw [hst,hn] at hs
      cases hs.1
    | some t => simp [Issued.target,takeProgpowNotify,ht,hn,hs.2 t hst]

theorem Sealed.notify {noncePrefix : CStr} (hi : Sealed p n m) (ha : m.assigned = some noncePrefix)
    (ho : m.takesWell params) : Sealed p n (m.notify noncePrefix params) := by
  obtain ⟨hx,hlen,hpre⟩ := hi.assigned _ ha
  unfold Rig.notify stratumProgpowNotify
  cases hq : readProgpowNotify params with
  | error e => exact hi
  | ok q =>
    have hok := ho q (by rw [hq]; rfl)
    cases hh : (takeProgpowNotify m.ctx q).job.haveTarget with
    | false =>
      have hnone : ¬(q.target.isSome ∨ m.ctx.haveNextTarget = true) := by
        simpa [takeProgpowNotify] using hh
      rw [if_neg hnone] at hok
      simp only [hh]
      exact hi.keeps rfl ⟨rfl,rfl⟩ fun hnew => absurd (hok.symm.trans hnew) (by decide)
    | true =>
      have hsome : q.target.isSome ∨ m.ctx.haveNextTarget = true := by
        simpa [takeProgpowNotify] using hh
      rw [if_pos hsome] at hok
      simp only [hh,if_true]
      refine ⟨hi.assigned,hi.stated,fun a hm => ?_,fun _ => ⟨_,List.mem_append_right _
        (List.mem_singleton_self _),pending_taken hx hi.stated hh⟩,fun w hw => ?_,
        fun i hin => (hi.workers i hin).later _,fun s hmem => ?_⟩
      · rcases List.mem_append.mp hm with hm | hm
        · exact hi.plain a hm
        · rw [List.mem_singleton.mp hm]
          exact ⟨hok.1,hok.2,hlen,hpre⟩
      · obtain ⟨a,hm,hof⟩ := hi.gWork w hw
        exact ⟨a,List.mem_append_left _ hm,hof⟩
      · obtain ⟨a,hm,hf⟩ := hi.shares s hmem
        exact ⟨a,List.mem_append_left _ hm,hf⟩

theorem Sealed.setTarget (hi : Sealed p n m) : Sealed p n (m.setTarget opt user params) := by
  unfold Rig.setTarget stratumSetTarget
  cases ht : parseTargetHex (jsonStringValue (jsonArrayGet params 0)) with
  | none => exact hi
  | some t =>
    refine ⟨hi.assigned,⟨rfl,fun t ht => Option.some.inj ht⟩,hi.plain,fun hnew => ?_,hi.gWork,
      hi.workers,hi.shares⟩
    obtain ⟨a,hm,hp⟩ := hi.pending hnew
    exact ⟨a,hm,hp.beside rfl rfl rfl⟩

theorem Sealed.setDifficulty (hi : Sealed p n m) : Sealed p n (m.setDifficulty params) := by
  unfold Rig.setDifficulty stratumSetDifficulty
  dsimp only
  split
  · exact hi
  · refine hi.keeps rfl ⟨rfl,rfl⟩ fun hnew => ?_
    obtain ⟨a,hm,hp⟩ := hi.pending hnew
    exact ⟨a,hm,hp.beside rfl rfl rfl⟩

theorem Sealed.publish {jobId : CStr} (hi : Sealed p n m) (hnew : m.ctx.newJob = true)
    (hjob : m.ctx.job.jobId = some jobId) : Sealed p n (m.publish jobId) := by
  obtain ⟨a,hm,hp⟩ := hi.pending hnew
  have hid := Option.some.inj (hjob.symm.trans hp.jobId)
  refine ⟨hi.assigned,hi.stated,hi.plain,nofun,fun w hw => ?_,hi.workers,hi.shares⟩
  cases hw
  refine ⟨a,hm,?_,hp.target,congrArg nonceBase hp.xnonce1⟩
  simp only [genWork,progpowGenWork,hp.header,hp.height,hexField_val,hid]

theorem Sealed.set {i : Nat} {w : Worker} (hi : Sealed p n m) (hw : w.Busy p n i m.accepted) :
    Sealed p n (m.set i w) := by
  refine ⟨hi.assigned,hi.stated,hi.plain,hi.pending,hi.gWork,fun j hj => ?_,hi.shares⟩
  change (Function.update m.workers i w j).Busy p n j m.accepted
  by_cases he : j = i
  · subst he
    rwa [Function.update_self]
  · rw [Function.update_of_ne he]
    exact hi.workers j hj

/-- No worker's range ends short of a batch, and none reaches past the prefix. -/
theorem endNonce_room {i : Nat} (hn : 0 < n ∧ n ≤ 9999) (hi : i < n) :
    4294967296 ≤ endNonce n nonceBits i ∧ endNonce n nonceBits i < 2^nonceBits := by
  have he : endNonce n nonceBits i+rangeMargin = _ ∧ _ := endNonce_eq hn (.inr rfl) hi
  have hr : 28147497671 ≤ range n nonceBits := by
    rw [range,Nat.le_div_iff_mul_le hn.1]
    have : space nonceBits = 281474976710656 := rfl
    omega
  have hm : rangeMargin = 32 := rfl
  exact ⟨by omega,he.2⟩

theorem Sealed.dispatch {i : Nat} {batch : UInt32} {ok : Bool} (hn : 0 < n ∧ n ≤ 9999)
    (hi : Sealed p n m) (hin : i < n) : Sealed p n (m.dispatch n i batch ok) := by
  have hw := hi.workers i hin
  obtain ⟨hroom,hlt⟩ := endNonce_room hn hin
  have hbatch : batch.toNat ≤ endNonce n nonceBits i :=
    Nat.le_trans (Nat.le_of_lt batch.toNat_lt) hroom
  have hend := (clampedBatch_le hlt hw.nonce hbatch).2
  unfold Rig.dispatch
  dsimp only
  split
  · exact hi.set ⟨hw.work,firstNonce_le_endNonce hn (.inr rfl) hin,hw.launched⟩
  · split
    · refine hi.set ⟨hw.work,hend,fun d hd => ?_⟩
      rcases List.mem_append.mp hd with hd | hd
      · exact hw.launched d hd
      · rw [List.mem_singleton.mp hd]
        exact hend
    · exact hi

theorem pair_of_length {b : Bytes} (h : b.length = 2) : ∃ x y, b = [x,y] := by
  match b,h with
  | [x,y],_ => exact ⟨x,y,rfl⟩

theorem PowWork.Of.reads {a : Issued} {w : PowWork} (ho : w.Of a) (ha : a.Plain) :
    heightOf w.work.data = a.notify.height ∧
      headerWords w.work.data = leWords (hexBytes a.notify.headerHash.val) ∧
      encode (w.work.data.take 8) = hexBytes a.notify.headerHash.val := by
  have hb : (hexBytes a.notify.headerHash.val).length = 4*8 := by
    have := a.notify.headerHash.2
    rw [hexBytes_length]
    omega
  have hl := beWords_length hb
  have hheight : (UInt32.ofNat a.notify.height).toNat = a.notify.height := by
    rw [UInt32.toNat_ofNat']
    exact Nat.mod_eq_of_lt ha.height
  have htake : w.work.data.take 8 = beWords (hexBytes a.notify.headerHash.val) := by
    rw [ho.work,← hl,List.take_left]
  have hword : w.work.data.getD 8 0 = UInt32.ofNat a.notify.height := by
    rw [ho.work,List.getD_eq_getElem?_getD,List.getElem?_append_right (Nat.le_of_eq hl),hl]
    rfl
  refine ⟨by rw [heightOf,hword,hheight],?_,?_⟩
  · rw [headerWords,htake,encode_beWords hb]
  · rw [htake,encode_beWords hb]

theorem PowWork.Of.share {a : Issued} {w : PowWork} {epoch first k id : Nat} {mix : Bytes}
    (ho : w.Of a) (ha : a.Plain) (he : epoch = p.epochOf (heightOf w.work.data))
    (hw : first+k < 2^nonceBits)
    (hv : verify p epoch w.work.data ((w.nonceBase ||| UInt64.ofNat first)+UInt64.ofNat k)
      w.target = true)
    (hm : submitMix p epoch w.work.data ((w.nonceBase ||| UInt64.ofNat first)+UInt64.ofNat k) =
      some mix) :
    Share.From p a ⟨progpowBuildStratumRequest user w.work
      ((w.nonceBase ||| UInt64.ofNat first)+UInt64.ofNat k) mix id,first+k,w.target⟩ := by
  obtain ⟨hheight,hwords,hbytes⟩ := ho.reads ha
  have hplen : (hexBytes a.noncePrefix).length = 2 := by rw [hexBytes_length,ha.length]
  obtain ⟨x,y,hxy⟩ := pair_of_length hplen
  have hnum : ((w.nonceBase ||| UInt64.ofNat first)+UInt64.ofNat k).toNat =
      (x.toNat*256+y.toNat)*2^48+(first+k) := by
    rw [ho.nonceBase,hxy]
    exact nonce_split hw
  have hbe := be64Bytes_split hw hnum
  have hlow : bin2hex [x,y] = lower a.noncePrefix := by
    rw [← hxy]
    exact bin2hex_hexBytes ha.noncePrefix (by rw [ha.length])
  have hnonce : UInt64.ofNat (beNumber (a.nonceBytes (first+k))) =
      (w.nonceBase ||| UInt64.ofNat first)+UInt64.ofNat k := by
    rw [Issued.nonceBytes,hxy,beNumber_split hw,← hnum,UInt64.ofNat_toNat]
  have hhash : a.hash p (first+k) =
      fullHash p epoch w.work.data ((w.nonceBase ||| UInt64.ofNat first)+UInt64.ofNat k) := by
    rw [Issued.hash,hnonce,fullHash,he,hheight,hwords]
  refine ⟨by rw [progpowBuildStratumRequest,ho.work],hw,?_,?_,ho.target,?_⟩
  · simp only [progpowBuildStratumRequest,hbe]
    rw [bin2hex,List.flatMap_append,← bin2hex,← bin2hex,hlow,List.append_assoc]
  · simp only [progpowBuildStratumRequest,hbytes]
    rw [bin2hex_hexBytes ha.header (by rw [a.notify.headerHash.2])]
  · cases hout : fullHash p epoch w.work.data
        ((w.nonceBase ||| UInt64.ofNat first)+UInt64.ofNat k) with
    | none =>
      simp only [submitMix,hout] at hm
      cases hm
    | some out =>
      simp only [submitMix,hout] at hm
      cases hm
      simp only [verify,hout] at hv
      exact ⟨out,hhash.trans hout,rfl,hv⟩

theorem Sealed.reap {i first b k id : Nat} {w : PowWork} (hn : 0 < n ∧ n ≤ 9999)
    (hi : Sealed p n m) (hin : i < n) (hw : (m.workers i).work = some w)
    (hd : (first,b) ∈ (m.workers i).launched) (hk : k < b) :
    Sealed p n (m.reap p user (m.workers i).epoch w first k id) := by
  have hb := hi.workers i hin
  obtain ⟨⟨a,hmem,ho⟩,he⟩ := hb.work w hw
  have hlaunched := hb.launched _ hd
  have hroom := (endNonce_room hn hin).2
  have hwalk : first+k < 2^nonceBits := by
    simp only at hlaunched
    omega
  unfold Rig.reap
  dsimp only
  split
  · rename_i hv
    split
    · exact hi
    · rename_i mix hm
      refine ⟨hi.assigned,hi.stated,hi.plain,hi.pending,hi.gWork,hi.workers,fun s hs => ?_⟩
      rcases List.mem_append.mp hs with hs | hs
      · exact hi.shares s hs
      · rw [List.mem_singleton.mp hs]
        exact ⟨a,hmem,ho.share (hi.plain a hmem) he hwalk hv hm⟩
  · exact hi

theorem Sealed.step (hn : 0 < n ∧ n ≤ 9999) (hi : Sealed p n m) (ho : m.InOrder user e)
    (hs : m.step opt p user n e = some m') : Sealed p n m' := by
  cases e with
  | subscribed line =>
    simp only [Rig.step,Option.some.injEq] at hs
    exact hs ▸ hi.assigns (readSubscribed_assigns user m.ctx line) ho
  | notify params =>
    cases ha : m.assigned with
    | none => simp [Rig.step,ha] at hs
    | some noncePrefix =>
      simp only [Rig.step,ha,Option.some.injEq] at hs
      exact hs ▸ hi.notify ha ho
  | setTarget params =>
    cases ha : m.assigned with
    | none => simp [Rig.step,ha] at hs
    | some noncePrefix =>
      simp only [Rig.step,ha,Option.some.injEq] at hs
      exact hs ▸ hi.setTarget
  | setDifficulty params =>
    cases ha : m.assigned with
    | none => simp [Rig.step,ha] at hs
    | some noncePrefix =>
      simp only [Rig.step,ha,Option.some.injEq] at hs
      exact hs ▸ hi.setDifficulty
  | setExtranonce params =>
    cases ha : m.assigned with
    | none => simp [Rig.step,ha] at hs
    | some noncePrefix =>
      simp only [Rig.step,ha,Option.some.injEq] at hs
      exact hs ▸ hi.assigns (parseNoncePrefix_assigns user m.ctx params 0) ho
  | publishes =>
    cases hnew : m.ctx.newJob with
    | false => simp [Rig.step,hnew] at hs
    | true =>
      cases hjob : m.ctx.job.jobId with
      | none => simp [Rig.step,hnew,hjob] at hs
      | some jobId =>
        simp only [Rig.step,hnew,hjob,Option.some.injEq] at hs
        exact hs ▸ hi.publish hnew hjob
  | copies i =>
    cases hg : m.gWork with
    | none => simp [Rig.step,hg] at hs
    | some w =>
      by_cases hin : i < n
      · simp only [Rig.step,hg,hin,if_true,Option.some.injEq] at hs
        refine hs ▸ hi.set ⟨fun x hx => ?_,firstNonce_le_endNonce hn (.inr rfl) hin,nofun⟩
        cases hx
        exact ⟨hi.gWork w hg,rfl⟩
      · simp [Rig.step,hg,hin] at hs
  | dispatches i batch ok =>
    by_cases hin : i < n ∧ (m.workers i).work.isSome = true
    · simp only [Rig.step,hin,and_self,if_true,Option.some.injEq] at hs
      exact hs ▸ hi.dispatch hn hin.1
    · simp only [Rig.step,hin,if_false] at hs
      cases hs
  | solves i d k id =>
    cases hw : (m.workers i).work with
    | none => simp [Rig.step,hw] at hs
    | some w =>
      cases hd : (m.workers i).launched[d]? with
      | none => simp [Rig.step,hw,hd] at hs
      | some l =>
        obtain ⟨first,b⟩ := l
        by_cases hin : i < n ∧ k < b
        · simp only [Rig.step,hw,hd,hin,and_self,if_true,Option.some.injEq] at hs
          exact hs ▸ hi.reap hn hin.1 hw (List.mem_of_getElem? hd) hin.2
        · simp only [Rig.step,hw,hd,hin,if_false] at hs
          cases hs

/-- Every share carries the prefix, the header, the mix and the target of one notify. -/
theorem shares_sealed (opt : Options) (p : ProgPow) (user : CStr) (n : Nat) (m : Rig)
    (hn : 0 < n ∧ n ≤ 9999)
    (hr : Reach (Rig.step opt p user n) (Rig.InOrder user) (Rig.start n) m) :
    ∀ s ∈ m.shares, ∃ a ∈ m.accepted, s.From p a :=
  (hr.invariant (I := Sealed p n) (.start hn) fun _ _ _ hi ho hs => hi.step hn ho hs).shares

/-- A plain function in the place of the hash, to run the model on. -/
def plainProgPow : ProgPow := ⟨fun height => height/7500,fun _ _ header _ => some (header,header)⟩

/-- A session under the prefix `abcd`, one job of it, and one nonce found. The header is 64 times
the digit `c`, and every hash meets the target. -/
def oneJob (c : Char) : List Event :=
  [.subscribed (some (.object [(ascii "result",.array [.null,.string (ascii "abcd")])])),
    .notify (some (.array [.string (ascii "1"),.string (List.replicate 64 (UInt8.ofNat c.toNat)),
      .string (List.replicate 64 48),.string (List.replicate 64 102),.bool true,
      .integer 1500000])),
    .publishes,.copies 0,.dispatches 0 1024 true,.solves 0 0 5 4]

theorem one_job_sealed : ∃ m,
    Reach (Rig.step direct plainProgPow [] 1) (Rig.InOrder []) (Rig.start 1) m ∧
      m.shares.map (fun s => s.submission.xnonce2) = [ascii "0xabcd000000000005"] ∧
      ∀ s ∈ m.shares, ∃ a ∈ m.accepted, s.From plainProgPow a := by
  obtain ⟨m,hr,hs⟩ := reach_of_any (Rig.step direct plainProgPow [] 1) (Rig.InOrder [])
    (Rig.start 1) (oneJob 'C')
    (fun m => m.shares.map (fun s => s.submission.xnonce2) = [ascii "0xabcd000000000005"])
    (by decide +kernel)
  exact ⟨m,hr,hs,shares_sealed direct plainProgPow [] 1 m (by decide) hr⟩

/-- A header that is not hex is taken for zeros, mined and submitted. -/
theorem shares_not_always_sealed :
    ¬∀ (opt : Options) (p : ProgPow) (user : CStr) (n : Nat) (m : Rig), 0 < n ∧ n ≤ 9999 →
      Reach (Rig.step opt p user n) free (Rig.start n) m →
        ∀ s ∈ m.shares, ∃ a ∈ m.accepted, s.From p a := by
  intro hall
  obtain ⟨m,hr,s,hs,hne⟩ := reach_of_any (Rig.step direct plainProgPow [] 1) free
    (Rig.start 1) (oneJob 'g')
    (fun m => ∃ s ∈ m.shares, ∀ a ∈ m.accepted,
      s.submission.ntime ≠ ascii "0x" ++ lower a.notify.headerHash.val)
    (by decide +kernel)
  obtain ⟨a,ha,hf⟩ := hall direct plainProgPow [] 1 m (by decide) hr s hs
  exact hne a ha hf.header

end VkMiner.Scheduler.Seals
