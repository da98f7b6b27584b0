import VkMiner.Core.Hex
import VkMiner.Core.Json
import VkMiner.Lib.ByteOrder
set_option autoImplicit false

/-! The job of a stratum session, and the readers of a job's fields. -/

namespace VkMiner.Stratum

inductive Dialect where
  | bitcoin | progpow | lbry
  deriving DecidableEq, Repr

/-- `merkle` is the buffer of branch entries; the branch is its first
`merkleCount`. `xnonce2` is an offset into `coinbase`, whose length is the
source's `coinbase_size`. -/
structure StratumJob where
  prevhash : Fixed 32
  jobId : Option CStr
  coinbase : Bytes
  xnonce2 : Nat
  merkleCount : Nat
  merkle : List (Fixed 32)
  version : Fixed 4
  nbits : Fixed 4
  ntime : Fixed 4
  diff : Rat
  clean : Bool
  extra : Fixed 32
  headerHash : Fixed 32
  seedHash : Fixed 32
  target : List UInt32
  haveTarget : Bool
  deriving DecidableEq

structure StratumCtx where
  nextDiff : Rat
  nextTarget : List UInt32
  haveNextTarget : Bool
  xnonce1 : Bytes
  xnonce2Size : Nat
  job : StratumJob
  blockHeight : UInt32
  newJob : Bool
  deriving DecidableEq

def StratumJob.branch (j : StratumJob) : List (Fixed 32) := j.merkle.take j.merkleCount

/-- The static structure, before anything has been received. -/
def StratumCtx.zero : StratumCtx where
  nextDiff := 0
  nextTarget := List.replicate 8 0
  haveNextTarget := false
  xnonce1 := []
  xnonce2Size := 0
  job :=
    { prevhash := .zero 32, jobId := none, coinbase := [], xnonce2 := 0, merkleCount := 0,
      merkle := [], version := .zero 4, nbits := .zero 4, ntime := .zero 4, diff := 0,
      clean := false, extra := .zero 32, headerHash := .zero 32, seedHash := .zero 32,
      target := List.replicate 8 0, haveTarget := false }
  blockHeight := 0
  newJob := false

def le16dec (b : Bytes) (i : Nat) : Nat := (b.getD i 0).toNat+256*(b.getD (i+1) 0).toNat

def scanWhile (coinbase : Bytes) (stays : UInt8 → Bool) (m : Nat) : Nat → Nat → Nat
  | 0,p => p
  | fuel+1,p =>
    if stays (coinbase.getD p 0) && p < m then scanWhile coinbase stays m fuel (p+1) else p

/-- The height in the coinbase's script; bytes past its end are read as zeros. -/
def getblocheight (coinbase : Bytes) : UInt32 :=
  let m := coinbase.length-2
  let p := scanWhile coinbase (fun b => b ≠ 255) m m 32
  let p := scanWhile coinbase (fun b => b = 255) m m p
  if coinbase.getD (p-1) 0 = 255 ∧ coinbase.getD (p-2) 0 = 255 then
    let hlen := coinbase.getD (p+1) 0
    let height := le16dec coinbase (p+2)
    let more :=
      if hlen = 4 then 65536*le16dec coinbase (p+4)
      else if hlen = 3 then 65536*(coinbase.getD (p+4) 0).toNat
      else 0
    UInt32.ofNat (height+more)
  else 0

/-- A target is either 64 digits of hex or it is not a target. Its words are kept
most significant last. -/
def parseTargetHex (hex : Option CStr) : Option (List UInt32) :=
  match hex with
  | none => none
  | some s =>
    let raw := hex2bin (Fixed.zero 32) s
    if s.length ≠ 64 ∨ raw.1 = false then none
    else some (ByteOrder.beWords raw.2.val).reverse

/-- A field that pools spell either way, as a number or as a string of hex. -/
def parseUintField (j : Option Json) : Option Nat :=
  match j with
  | some (.integer n) => if n < 0 then none else some n.toNat
  | some (.string s) =>
    match s with
    | [] => none
    | c :: rest =>
      let r := strtoull16 (if c = 48 ∧ (rest.head? = some 120 ∨ rest.head? = some 88) then
        rest.tail else s)
      if r.2.isEmpty then some r.1 else none
  | _ => none

end VkMiner.Stratum
