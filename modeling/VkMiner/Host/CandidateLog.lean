import Mathlib.Algebra.Group.Nat.Defs
import VkMiner.Api.Http
import VkMiner.Core.Decimal
import VkMiner.Lib.Lines
import VkMiner.Lib.Scan
import VkMiner.Scheduler.Device
import VkMiner.Session.Link
set_option autoImplicit false

/-! The candidates that a device reported and the host did not confirm: the log they are kept in,
what is read back from it, and what a replay hashes. -/

namespace VkMiner.CandidateLog
open ByteOrder Scan
open Scheduler.Mining (CandidateFault)

abbrev Block (n : Nat) := {ws : List UInt32 // ws.length = n}

structure CapturedCandidate where
  fault : CandidateFault
  device : Int32
  nonce : UInt64
  header : Block 20
  target : Block 8
  deviceHash : Block 8
  hostHash : Block 8
  deriving DecidableEq

def kMaxRecords : Nat := 64

def kFormat : Int32 := 2

def faultName : CandidateFault → CStr
  | .wrongDigest => ascii "digest"
  | .belowTarget => ascii "target"

def faultFromName (name : CStr) : Option CandidateFault :=
  if name = ascii "digest" then some .wrongDigest
  else if name = ascii "target" then some .belowTarget
  else none

/-- `%08x`. -/
def hex8 (w : UInt32) : CStr := bin2hex (beBytes w)

def writeWords (words : List UInt32) : CStr := 32 :: words.flatMap hex8

def highHalf (nonce : UInt64) : UInt32 := UInt32.ofNat (nonce.toNat/4294967296)

def lowHalf (nonce : UInt64) : UInt32 := UInt32.ofNat nonce.toNat

def record (bad : CapturedCandidate) : CStr :=
  Session.decimalInt kFormat.toInt ++ (32 :: faultName bad.fault) ++
    (32 :: Session.decimalInt bad.device.toInt) ++
    writeWords [highHalf bad.nonce,lowHalf bad.nonce] ++ writeWords bad.header.val ++
    writeWords bad.target.val ++ writeWords bad.deviceHash.val ++ writeWords bad.hostHash.val

def preamble : List CStr :=
  [ascii "# vkminer: candidates a device reported and the host did not confirm.",
    ascii "# fields: format fault device nonce header target device-digest host-digest",
    ascii "# Words are hex, most significant word of a digest last, as the target is compared.",
    ascii "# Re-run them with: vkminer -a ALGO --replay <this file>"]

/-- The file, and how many records this run has put into it. -/
structure Store where
  written : Nat
  file : Bytes

/-- What comes of a write: the bytes of it that reach the file, those that `fclose` flushes among
them, and what `ferror` says before. -/
structure Append where
  reached : Nat
  failed : Bool

def printed (file : Bytes) (bad : CapturedCandidate) : Bytes :=
  (if file = [] then Lines.join 10 preamble else []) ++ Lines.join 10 [record bad]

/-- `capture_candidate`, and whether it returned the path; `opens` says if the file could be
opened. What `fclose` returns is not looked at. -/
def captureCandidate (opens : Bool) (w : Append) (s : Store) (bad : CapturedCandidate) :
    Store × Bool :=
  if kMaxRecords ≤ s.written ∨ opens = false then (s,false)
  else
    let file := s.file ++ (printed s.file bad).take w.reached
    if w.failed then (⟨s.written,file⟩,false) else (⟨s.written+1,file⟩,true)

def readWord (word : CStr) : Option UInt32 :=
  if (strtoull16 word).2 = [] then some (UInt32.ofNat (strtoull16 word).1) else none

def Block.cons {n : Nat} (w : UInt32) (ws : Block n) : Block (n+1) := ⟨w :: ws.val,by simp [ws.2]⟩

def readGroups : (n : Nat) → CStr → Option (Block n)
  | 0,_ => some ⟨[],rfl⟩
  | n+1,text =>
    match readWord (text.take 8),readGroups n (text.drop 8) with
    | some w,some ws => some (ws.cons w)
    | _,_ => none

def readWords (n : Nat) (text : CStr) : Option (Block n) :=
  if text.length ≠ n*8 then none else readGroups n text

def characters : Alphabet UInt8 := ⟨isspace,fun c => c == 43 || c == 45,isDecimal⟩

def conversions : List Conv :=
  [.number,.word 15,.number,.word 23,.word 191,.word 79,.word 79,.word 79]

/-- `%d`. -/
def intOf (text : CStr) : Int32 := Int32.ofInt (Api.strtol text).1

def recordOf : List (Piece UInt8) → Option CapturedCandidate
  | [format,fault,device,nonce,header,target,deviceHash,hostHash] =>
    if intOf format.text ≠ kFormat then none
    else
      match faultFromName fault.text,readWords 2 nonce.text,readWords 20 header.text,
        readWords 8 target.text,readWords 8 deviceHash.text,readWords 8 hostHash.text with
      | some fault,some nonce,some header,some target,some deviceHash,some hostHash =>
        some {
          fault := fault
          device := intOf device.text
          nonce := (nonce.val.getD 0 0).toUInt64 <<< 32 ||| (nonce.val.getD 1 0).toUInt64
          header := header
          target := target
          deviceHash := deviceHash
          hostHash := hostHash }
      | _,_,_,_,_,_ => none
  | _ => none

def readRecord (line : Bytes) : Option CapturedCandidate :=
  match scan characters conversions (Api.cstr line) with
  | some (pieces,_) => recordOf pieces
  | none => none

def readLines : List Bytes → Option (List CapturedCandidate)
  | [] => some []
  | line :: rest =>
    if line.head? = some 35 ∨ line.head? = some 10 then readLines rest
    else
      match readRecord line with
      | none => none
      | some bad => (readLines rest).map (bad :: ·)

def lineBytes : Nat := 1024

def readLog (file : Bytes) : Option (List CapturedCandidate) :=
  readLines (Lines.chunks 10 (lineBytes-1) [] file)

def readCaptures (file : Bytes) : Option (List CapturedCandidate) :=
  match readLog file with
  | some [] => none
  | r => r

/-! ### What is hashed -/

inductive Algorithm where
  | sha256d | blake2s | scrypt | sha3t | lbry | sha512256d | skein | skein2 | groestl | myrGr
  | bmw512 | heavyhash | qubit | x11 | x13 | kawpow | firopow | evrprogpow | meowpow | meraki
  deriving DecidableEq

def periodLength : Algorithm → Option Nat
  | .kawpow | .evrprogpow | .meraki => some 3
  | .meowpow => some 6
  | .firopow => some 1
  | _ => none

def wireWords : Algorithm → Nat
  | .lbry => 27
  | _ => 19

/-- What a hash is taken of: a header on the wire with the nonce at its end, or ProgPoW's hash
of a header, with the program's period and a nonce of its own. -/
inductive Hashed where
  | wire (data : Bytes)
  | progpow (header : List UInt32) (period : Nat) (nonce : UInt64)
  deriving DecidableEq

def readHeader (header : Nat → Option UInt32) (n : Nat) : Option (List UInt32) :=
  (List.range n).mapM header

def hashed (a : Algorithm) (header : Nat → Option UInt32) (nonce : UInt64) : Option Hashed :=
  match periodLength a with
  | none => (readHeader header (wireWords a)).map fun ws =>
      .wire (encode ws ++ beBytes (lowHalf nonce))
  | some period => (readHeader header 9).map fun ws =>
      .progpow (Scheduler.Seals.headerWords ws) (Scheduler.Seals.heightOf ws/period) nonce

def hashReads (a : Algorithm) : List Nat :=
  match periodLength a with
  | none => List.range (wireWords a)
  | some _ => List.range 9

def programReads (a : Algorithm) : List Nat :=
  match periodLength a with
  | none => []
  | some _ => [8]

def prepareReads (a : Algorithm) : List Nat := hashReads a

def replayReads (a : Algorithm) : List Nat := hashReads a ++ programReads a ++ prepareReads a

structure Work where
  data : Block 32
  target : Block 8

structure Solution where
  nonce : UInt64
  hash : Block 8

def capture (fault : CandidateFault) (deviceIndex : Int32) (work : Work) (got : Solution)
    (hostHash : Block 8) : CapturedCandidate where
  fault := fault
  device := deviceIndex
  nonce := got.nonce
  header := ⟨work.data.val.take 20,by simp [work.data.2]⟩
  target := work.target
  deviceHash := got.hash
  hostHash := hostHash

/-- The log can be read, and goes on at a line's start; and what is printed gets into it, but for
the end of the line at the most. -/
structure Landed (w : Append) (file : Bytes) (bad : CapturedCandidate) : Prop where
  reads : (readLog file).isSome
  ended : Lines.begun 10 (lineBytes-1) [] file = []
  reached : (printed file bad).length ≤ w.reached+1

/-- The logs that runs of the miner leave whose writes are whole, and the records in them. -/
inductive Kept : Store → List CapturedCandidate → Prop where
  | new : Kept ⟨0,[]⟩ []
  | restart {s : Store} {cs : List CapturedCandidate} : Kept s cs → Kept ⟨0,s.file⟩ cs
  | capture {s : Store} {cs : List CapturedCandidate} (opens : Bool) (w : Append)
      (bad : CapturedCandidate) : Kept s cs → w.failed = false →
      (printed s.file bad).length ≤ w.reached → Kept (captureCandidate opens w s bad).1
        (if (captureCandidate opens w s bad).2 then cs ++ [bad] else cs)

end VkMiner.CandidateLog
