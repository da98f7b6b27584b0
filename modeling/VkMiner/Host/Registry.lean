import VkMiner.Host.CandidateLog
import VkMiner.Stratum.Job
set_option autoImplicit false

/-! The names of the algorithms, and what the protocol client is told of the one that is mined. -/

namespace VkMiner.Registry
open CandidateLog Stratum

def Entry.name : Algorithm → CStr
  | .sha256d => ascii "sha256d"
  | .blake2s => ascii "blake2s"
  | .scrypt => ascii "scrypt"
  | .sha3t => ascii "sha3t"
  | .lbry => ascii "lbry"
  | .sha512256d => ascii "sha512256d"
  | .skein => ascii "skein"
  | .skein2 => ascii "skein2"
  | .groestl => ascii "groestl"
  | .myrGr => ascii "myr-gr"
  | .bmw512 => ascii "bmw512"
  | .heavyhash => ascii "heavyhash"
  | .qubit => ascii "qubit"
  | .x11 => ascii "x11"
  | .x13 => ascii "x13"
  | .kawpow => ascii "kawpow"
  | .firopow => ascii "firopow"
  | .evrprogpow => ascii "evrprogpow"
  | .meowpow => ascii "meowpow"
  | .meraki => ascii "meraki"

def kAlgorithms : List Algorithm :=
  [.sha256d,.blake2s,.scrypt,.sha3t,.lbry,.sha512256d,.skein,.skein2,.groestl,.myrGr,.bmw512,
    .heavyhash,.qubit,.x11,.x13,.kawpow,.firopow,.evrprogpow,.meowpow,.meraki]

/-- No entry has an alias, and an empty one is nobody's name. -/
def sameName (a b : CStr) : Bool := !a.isEmpty && a.map tolower == b.map tolower

def createAlgorithm (name : CStr) : Option Algorithm :=
  kAlgorithms.find? fun a => sameName name (Entry.name a)

structure ProtocolSettings where
  targetFactor : Rat
  nonceBits : Nat
  dialect : Dialect
  seedHashChecked : Bool
  ntimeIndex : Nat
  nbitsIndex : Nat
  nonceIndex : Nat
  coinbaseSha256 : Bool
  deriving DecidableEq

def targetFactor : Algorithm → Rat
  | .scrypt => 65536
  | .lbry | .groestl | .bmw512 => 256
  | _ => 1

def nonceBits (a : Algorithm) : Nat := if (periodLength a).isSome then 48 else 32

def coinbaseSha256 : Algorithm → Bool
  | .groestl => true
  | _ => false

def stratumDialect (a : Algorithm) : Dialect :=
  if a = .lbry then .lbry else if (periodLength a).isSome then .progpow else .bitcoin

def settingsOf (a : Algorithm) : ProtocolSettings :=
  match stratumDialect a with
  | .progpow => ⟨targetFactor a,nonceBits a,.progpow,true,17,18,19,coinbaseSha256 a⟩
  | .lbry => ⟨targetFactor a,nonceBits a,.lbry,false,25,26,27,coinbaseSha256 a⟩
  | .bitcoin => ⟨targetFactor a,nonceBits a,.bitcoin,false,17,18,19,coinbaseSha256 a⟩

def bindProtocolSettings (name : CStr) (s : ProtocolSettings) : ProtocolSettings :=
  match createAlgorithm name with
  | none => s
  | some a => settingsOf a

end VkMiner.Registry
