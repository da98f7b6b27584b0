import VkMiner.Stratum.Notify
set_option autoImplicit false

/-! The header the device is given, word by word, and the header a pool rebuilds
from its own notify and the fields of a share, byte by byte. -/

namespace VkMiner.Stratum
open ByteOrder

/-- The hashes of core/sha256.h, and whether a coinbase is hashed only once. -/
structure Hashes where
  sha256Full : Bytes → Fixed 32
  sha256d : Bytes → Fixed 32
  coinbaseSha256 : Bool

/-- Plain functions in the place of the hashes, to run the model on. -/
def plainHashes : Hashes where
  sha256Full := Fixed.fill 32
  sha256d := Fixed.fill 32
  coinbaseSha256 := false

def Hashes.coinbase (h : Hashes) (b : Bytes) : Fixed 32 :=
  if h.coinbaseSha256 then h.sha256Full b else h.sha256d b

/-- `sha256d_gen_merkle_root`: the branch is folded into the hashed coinbase. -/
def merkleRoot (h : Hashes) (coinbase : Bytes) (branch : List (Fixed 32)) : Fixed 32 :=
  branch.foldl (fun root entry => h.sha256d (root.val ++ entry.val)) (h.coinbase coinbase)

structure Work where
  data : List UInt32
  jobId : CStr
  xnonce2 : Bytes
  deriving DecidableEq

def le32dec (b : Fixed 4) : UInt32 := (leWords b.val).headD 0

/-- The 80-byte layout, with the padding of a SHA-256 block after it. -/
def stdBuildBlockHeader (version : UInt32) (prevhash merkle : Fixed 32) (ntime nbits : UInt32) :
    List UInt32 :=
  version :: (leWords prevhash.val ++ beWords merkle.val ++ [ntime,nbits,0,0x80000000] ++
    List.replicate 10 0 ++ [0x280])

/-- The 112-byte layout, which has the claimtrie root before `ntime`. -/
def lbryBuildBlockHeader (version : UInt32) (prevhash merkle claim : Fixed 32)
    (ntime nbits : UInt32) : List UInt32 :=
  version :: (leWords prevhash.val ++ beWords merkle.val ++ leWords claim.val ++
    [ntime,nbits,0,0x80000000] ++ List.replicate 2 0 ++ [0x380])

def buildExtraheader (d : Dialect) (h : Hashes) (j : StratumJob) : List UInt32 :=
  let root := merkleRoot h j.coinbase j.branch
  if d = .lbry then
    lbryBuildBlockHeader (le32dec j.version) j.prevhash root j.extra (le32dec j.ntime)
      (le32dec j.nbits)
  else
    stdBuildBlockHeader (le32dec j.version) j.prevhash root (le32dec j.ntime) (le32dec j.nbits)

/-- Bytes written over a buffer from an offset on, as far as the buffer goes. -/
def overlay (b : Bytes) (offset : Nat) (new : Bytes) : Bytes :=
  (b.take offset ++ new ++ b.drop (offset+new.length)).take b.length

def preIncrement : Bytes → Bytes
  | [] => []
  | b :: rest => if b+1 = 0 then 0 :: preIncrement rest else (b+1) :: rest

def counterBytes (counter : UInt64) (width : Nat) : Bytes :=
  (List.range width).map (fun i =>
    if i < 8 then UInt8.ofNat (counter.toNat >>> (8*i)) else 0)

@[simp] theorem counterBytes_length (counter : UInt64) (width : Nat) :
    (counterBytes counter width).length = width := by
  simp [counterBytes]

def StratumJob.xnonce2Bytes (j : StratumJob) (size : Nat) : Bytes :=
  (j.coinbase.drop j.xnonce2).take size

def StratumCtx.withXnonce2 (c : StratumCtx) (new : Bytes) : StratumCtx :=
  { c with job := { c.job with coinbase := overlay c.job.coinbase c.job.xnonce2 new } }

def progpowGenWork (c : StratumCtx) (jobId : CStr) : Work :=
  ⟨beWords c.job.headerHash.val ++ [c.blockHeight],jobId,[]⟩

def stratumGenWork (d : Dialect) (h : Hashes) (c : StratumCtx) (jobId : CStr) :
    Work × StratumCtx :=
  let x := c.job.xnonce2Bytes c.xnonce2Size
  (if d = .progpow then progpowGenWork c jobId else ⟨buildExtraheader d h c.job,jobId,x⟩,
    { c.withXnonce2 (preIncrement x) with newJob := false })

/-- `stratum_set_extranonce2`: nothing is done unless the job is still the one held. -/
def stratumSetExtranonce2 (d : Dialect) (h : Hashes) (c : StratumCtx) (w : Work)
    (counter : UInt64) : Option (Work × StratumCtx) :=
  if c.xnonce2Size ≠ 0 ∧ c.job.jobId = some w.jobId then
    let x := counterBytes counter c.xnonce2Size
    let c' := c.withXnonce2 x
    some (⟨buildExtraheader d h c'.job,w.jobId,x⟩,c')
  else none

def ntimeIndex (d : Dialect) : Nat := if d = .lbry then 25 else 17
def nonceIndex (d : Dialect) : Nat := if d = .lbry then 27 else 19

def deviceHeader (d : Dialect) (data : List UInt32) : Bytes :=
  encode (data.take (nonceIndex d+1))

def be64Bytes (x : UInt64) : Bytes :=
  (List.range 8).map (fun i => UInt8.ofNat (x.toNat >>> (8*(7-i))))

/-- The arguments of mining.submit, and the id it goes out under. -/
structure Submission where
  user : CStr
  jobId : CStr
  xnonce2 : CStr
  ntime : CStr
  nonce : CStr
  id : Nat
  deriving DecidableEq

def quoted (s : CStr) : CStr := ascii "\"" ++ s ++ ascii "\""

/-- The line as it is printed, into a buffer of 512 bytes. -/
def Submission.line (s : Submission) : CStr :=
  (ascii "\x7b\"method\": \"mining.submit\", \"params\": [" ++ quoted s.user ++ ascii ", " ++
    quoted s.jobId ++ ascii ", " ++ quoted s.xnonce2 ++ ascii ", " ++ quoted s.ntime ++
    ascii ", " ++ quoted s.nonce ++ ascii "], \"id\":" ++ decimal s.id ++ ascii "\x7d").take 511

def stdLeBuildStratumRequest (d : Dialect) (user : CStr) (w : Work) (id : Nat) : Submission where
  user := user
  jobId := w.jobId
  xnonce2 := bin2hex w.xnonce2
  ntime := bin2hex (leBytes (w.data.getD (ntimeIndex d) 0))
  nonce := bin2hex (leBytes (w.data.getD (nonceIndex d) 0))
  id := id

/-- The line of the other dialect carries the whole nonce, the header that the pool
sent, and the mix, in the same five places. -/
def progpowBuildStratumRequest (user : CStr) (w : Work) (nonce : UInt64) (mixhash : Bytes)
    (id : Nat) : Submission where
  user := user
  jobId := w.jobId
  xnonce2 := ascii "0x" ++ bin2hex (be64Bytes nonce)
  ntime := ascii "0x" ++ bin2hex (encode (w.data.take 8))
  nonce := ascii "0x" ++ bin2hex mixhash
  id := id

def CoinbaseNotify.entries (q : CoinbaseNotify) : List (Fixed 32) :=
  q.branch.filterMap (fun j => (branchEntry j).map hexField)

/-- A notify that was accepted, with the half of the coinbase that the session
had given the miner at that moment. -/
structure Accepted where
  notify : CoinbaseNotify
  xnonce1 : Bytes
  width : Nat

def Accepted.coinbase (a : Accepted) (xnonce2 : Bytes) : Bytes :=
  hexBytes a.notify.coinb1 ++ a.xnonce1 ++ xnonce2 ++ hexBytes a.notify.coinb2

/-- The pool's own reconstruction. What it sent as hex of a word it reads turned
round, and so it reads the share's time and nonce. -/
def Accepted.header (h : Hashes) (a : Accepted) (xnonce2 ntime nonce : Bytes) : Bytes :=
  swapWords (hexField a.notify.version).val ++ swapWords (hexField a.notify.prevhash).val ++
    (merkleRoot h (a.coinbase xnonce2) a.notify.entries).val ++
    (match a.notify.claim with
      | some claim => swapWords (hexField claim).val
      | none => []) ++
    swapWords ntime ++ swapWords (hexField a.notify.nbits).val ++ swapWords nonce

/-- The job that `a` left behind, but for the extranonce2 in its coinbase. -/
structure Mirrors (d : Dialect) (a : Accepted) (j : StratumJob) : Prop where
  jobId : j.jobId = some a.notify.jobId
  prevhash : j.prevhash = hexField a.notify.prevhash
  claim : a.notify.claim.isSome = decide (d = .lbry)
  extra : ∀ claim, a.notify.claim = some claim → j.extra = hexField claim
  nbits : j.nbits = hexField a.notify.nbits
  ntime : j.ntime = hexField a.notify.ntime
  branch : j.branch = a.notify.entries
  offset : j.xnonce2 = (hexBytes a.notify.coinb1).length+a.xnonce1.length
  coinbase : ∃ xnonce2, xnonce2.length = a.width ∧ j.coinbase = a.coinbase xnonce2

theorem fixed_words (b : Fixed 32) : (leWords b.val).length = 8 :=
  leWords_length (k := 8) b.2

theorem root_words (b : Fixed 32) : (beWords b.val).length = 8 :=
  beWords_length (k := 8) b.2

theorem beBytes_le32dec (b : Fixed 4) : beBytes (le32dec b) = swapWords b.val := by
  obtain ⟨b,hb⟩ := b
  match b,hb with
  | [a,b,c,d],_ => simp [le32dec,leWords,swapWords]

/-- What both layouts have in common: `ws` stands between the version and the time. -/
def layout (version : UInt32) (ws : List UInt32) (ntime nbits : UInt32) (rest : List UInt32) :
    List UInt32 :=
  version :: (ws ++ ([ntime,nbits,0] ++ rest))

theorem layout_set (version ntime nbits nonce : UInt32) (ws rest : List UInt32) :
    (layout version ws ntime nbits rest).set (ws.length+3) nonce =
      version :: (ws ++ ([ntime,nbits,nonce] ++ rest)) := by
  unfold layout
  rw [List.set_cons_succ,List.set_append_right _ _ (by omega)]
  simp

theorem layout_bytes (version ntime nbits nonce : UInt32) (ws rest : List UInt32) :
    encode (((layout version ws ntime nbits rest).set (ws.length+3) nonce).take (ws.length+4)) =
      beBytes version ++ (encode ws ++ (beBytes ntime ++ (beBytes nbits ++ beBytes nonce))) := by
  have hs : (version :: (ws ++ ([ntime,nbits,nonce] ++ rest))) =
      (version :: (ws ++ [ntime,nbits,nonce])) ++ rest := by simp
  have hl : (version :: (ws ++ [ntime,nbits,nonce])).length = ws.length+4 := by simp
  rw [layout_set,hs,← hl,List.take_left]
  rw [encode_cons,encode_append]
  simp [encode]

theorem layout_ntime (version ntime nbits nonce : UInt32) (ws rest : List UInt32) :
    ((layout version ws ntime nbits rest).set (ws.length+3) nonce).getD (ws.length+1) 0 =
      ntime := by
  rw [layout_set]
  simp

theorem std_layout (version : UInt32) (prevhash merkle : Fixed 32) (ntime nbits : UInt32) :
    stdBuildBlockHeader version prevhash merkle ntime nbits =
      layout version (leWords prevhash.val ++ beWords merkle.val) ntime nbits
        (0x80000000 :: (List.replicate 10 0 ++ [0x280])) := by
  simp [stdBuildBlockHeader,layout]

theorem lbry_layout (version : UInt32) (prevhash merkle claim : Fixed 32)
    (ntime nbits : UInt32) :
    lbryBuildBlockHeader version prevhash merkle claim ntime nbits =
      layout version (leWords prevhash.val ++ beWords merkle.val ++ leWords claim.val) ntime
        nbits (0x80000000 :: (List.replicate 2 0 ++ [0x380])) := by
  simp [lbryBuildBlockHeader,layout]

theorem encode_middle (prevhash merkle : Fixed 32) (tail : List UInt32) :
    encode (leWords prevhash.val ++ beWords merkle.val ++ tail) =
      swapWords prevhash.val ++ (merkle.val ++ encode tail) := by
  rw [List.append_assoc,encode_append,encode_append,encode_leWords,
    encode_beWords (k := 8) merkle.2]

variable {d : Dialect} {a : Accepted} {j : StratumJob}

theorem buildExtraheader_pool (hd : d ≠ .progpow) (h : Hashes) (hm : Mirrors d a j)
    (hv : j.version = hexField a.notify.version) {xnonce2 : Bytes}
    (hx : j.coinbase = a.coinbase xnonce2) (nonce : UInt32) :
    let data := (buildExtraheader d h j).set (nonceIndex d) nonce
    deviceHeader d data =
      a.header h xnonce2 (leBytes (data.getD (ntimeIndex d) 0)) (leBytes nonce) := by
  have hp := fixed_words j.prevhash
  have hr := root_words (merkleRoot h j.coinbase j.branch)
  have hroot : merkleRoot h j.coinbase j.branch = merkleRoot h (a.coinbase xnonce2) a.notify.entries := by
    rw [hx,hm.branch]
  cases d with
  | progpow => exact absurd rfl hd
  | bitcoin =>
    have hclaim : a.notify.claim = none := by simpa using hm.claim
    have hlen : (leWords j.prevhash.val ++
        beWords (merkleRoot h j.coinbase j.branch).val).length = 16 := by simp [hp,hr]
    have hb := layout_bytes (le32dec j.version) (le32dec j.ntime) (le32dec j.nbits) nonce
      (leWords j.prevhash.val ++ beWords (merkleRoot h j.coinbase j.branch).val)
      (0x80000000 :: (List.replicate 10 0 ++ [0x280]))
    have hn := layout_ntime (le32dec j.version) (le32dec j.ntime) (le32dec j.nbits) nonce
      (leWords j.prevhash.val ++ beWords (merkleRoot h j.coinbase j.branch).val)
      (0x80000000 :: (List.replicate 10 0 ++ [0x280]))
    have he := encode_middle j.prevhash (merkleRoot h j.coinbase j.branch) []
    rw [List.append_nil] at he
    rw [hlen,← std_layout] at hb hn
    simp only [buildExtraheader,reduceCtorEq,if_false,nonceIndex,ntimeIndex,deviceHeader] at hb hn ⊢
    rw [hn,hb,he]
    simp only [Accepted.header,hclaim,swapWords_leBytes,beBytes_le32dec,hv,hm.prevhash,hm.nbits,hroot]
    simp [encode]
  | lbry =>
    have hsome : a.notify.claim.isSome = true := by simpa using hm.claim
    obtain ⟨claim,hclaim⟩ := Option.isSome_iff_exists.mp hsome
    have hc := fixed_words j.extra
    have hlen : (leWords j.prevhash.val ++ beWords (merkleRoot h j.coinbase j.branch).val ++
        leWords j.extra.val).length = 24 := by simp [hp,hr,hc]
    have hb := layout_bytes (le32dec j.version) (le32dec j.ntime) (le32dec j.nbits) nonce
      (leWords j.prevhash.val ++ beWords (merkleRoot h j.coinbase j.branch).val ++
        leWords j.extra.val) (0x80000000 :: (List.replicate 2 0 ++ [0x380]))
    have hn := layout_ntime (le32dec j.version) (le32dec j.ntime) (le32dec j.nbits) nonce
      (leWords j.prevhash.val ++ beWords (merkleRoot h j.coinbase j.branch).val ++
        leWords j.extra.val) (0x80000000 :: (List.replicate 2 0 ++ [0x380]))
    rw [hlen,← lbry_layout] at hb hn
    simp only [buildExtraheader,if_true,nonceIndex,ntimeIndex,deviceHeader] at hb hn ⊢
    rw [hn,hb,encode_middle,encode_leWords]
    simp only [Accepted.header,hclaim,swapWords_leBytes,beBytes_le32dec,hv,hm.prevhash,hm.nbits,hroot,
      hm.extra claim hclaim]
    simp

theorem buildExtraheader_length (h : Hashes) (j : StratumJob) :
    (buildExtraheader d h j).length = 32 := by
  have hr := root_words (merkleRoot h j.coinbase j.branch)
  unfold buildExtraheader
  split <;> simp [lbryBuildBlockHeader,stdBuildBlockHeader,fixed_words,hr]

theorem buildExtraheader_nonce (h : Hashes) (j : StratumJob) (nonce : UInt32) :
    ((buildExtraheader d h j).set (nonceIndex d) nonce).getD (nonceIndex d) 0 = nonce := by
  have hi : nonceIndex d < (buildExtraheader d h j).length := by
    rw [buildExtraheader_length]
    unfold nonceIndex
    split <;> omega
  simp [List.getD_eq_getElem?_getD,hi]

end VkMiner.Stratum
