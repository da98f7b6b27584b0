import VkMiner.Progpow.Lanes
import VkMiner.Progpow.Table
set_option autoImplicit false

/-! What the two kernels are the same in, line for line: the constants, the seals, the rounds of a
workgroup, the fold and the emit. -/

namespace VkMiner.Progpow
open Loops

abbrev Constants := Nat → Word

namespace Constants

def kRegs (c : Constants) : Word := c 264
def kCacheOps (c : Constants) : Word := c 265
def kMathOps (c : Constants) : Word := c 266
def kRounds (c : Constants) : Word := c 267
def kSealSeed (c : Constants) (i : Nat) : Word := c (268 + i)
def kSealFinal (c : Constants) (i : Nat) : Word := c (283 + i)
def kL1SharedWords (c : Constants) : Word := c 292
def kSeedPrePass (c : Constants) : Word := c 293

def shape (c : Constants) : Glsl.Shape := ⟨c.kRegs,c.kCacheOps,c.kMathOps⟩

end Constants

def kProgramConstantId : Nat := 8
def kMaxProgramConstants : Nat := 256
def kKernelConstantId : Nat := kProgramConstantId + kMaxProgramConstants

/-- The entries that a pipeline is specialized with: the program's constants and the kernel's own,
each in the order that the algorithm wrote them. -/
def specialized (program kernel : List Word) : Constants := fun id =>
  if kKernelConstantId ≤ id then kernel.getD (id - kKernelConstantId) 0
  else program.getD (id - kProgramConstantId) 0

def kernelConstants (params : Params) (l1SharedWords seedPrePass : Word) : List Word :=
  [params.regs,params.cacheOps,params.mathOps,params.rounds] ++ params.sealSeed.toList ++
    params.sealFinal.toList ++ [l1SharedWords,seedPrePass]

def programValues (params : Params) (key : BitVec 64) (lines : Nat) : List Word :=
  (buildProgram params key).toList ++ [BitVec.ofNat 32 lines]

structure Push where
  header : Words 8
  target : Words 8
  nonceLo : Word
  nonceHi : Word
  count : Word
  capacity : Word
  periodLo : Word
  periodHi : Word
  dagLines : Word

/-- A nonce that a kernel hands back, with the digest as the target is compared with it. -/
structure Candidate where
  nonceLo : Word
  nonceHi : Word
  hash : Words 8
  deriving DecidableEq

def Candidate.nonce (c : Candidate) : BitVec 64 :=
  (c.nonceHi.setWidth 64 <<< 32) ||| c.nonceLo.setWidth 64

/-- What an invocation comes to. Lanes other than the first leave before the last keccak. -/
structure Outcome where
  mixHash : Words 8
  state : Option (Words 8)
  emitted : Option Candidate

def Push.lo (push : Push) (index : Nat) : Word := push.nonceLo + BitVec.ofNat 32 index

def Push.hi (push : Push) (index : Nat) : Word :=
  push.nonceHi + if push.lo index < push.nonceLo then 1 else 0

def sealOf (c : Constants) (push : Push) (index : Nat) : Words 25 :=
  let seed := upTo 8 (Words.zeros 25) fun i seed => seed.write i (push.header.read i)
  let seed := seed.write 8 (push.lo index)
  let seed := seed.write 9 (push.hi index)
  Glsl.keccakF800 (upTo kSealSeedWords seed fun i seed => seed.write (10 + i) (c.kSealSeed i))

def seedLane (c : Constants) (seed : Nat → Word) (lane : Nat) : Regs :=
  let z := fnv1a kFnvOffsetBasis (seed 0)
  let w := fnv1a z (seed 1)
  let lane := BitVec.ofNat 32 lane
  Kiss99.fill ⟨z,w,fnv1a w lane,fnv1a (fnv1a w lane) lane⟩ c.kRegs.toNat

def lastOf (c : Constants) (seed : Nat → Word) (mixHash : Words 8) : Words 25 :=
  let last := upTo 8 (Words.zeros 25) fun i last => last.write i (seed i)
  let last := upTo 8 last fun i last => last.write (8 + i) (mixHash.read i)
  Glsl.keccakF800
    (upTo kSealFinalWords last fun i last => last.write (16 + i) (c.kSealFinal i))

def stateOf (last : Words 25) : Words 8 :=
  upTo 8 (Words.zeros 8) fun j state => state.write j (Glsl.bswap32 (last.read (7 - j)))

def withinTarget (state target : Words 8) : Nat → Bool
  | 0 => true
  | i + 1 =>
    if target.read i < state.read i then false
    else if state.read i < target.read i then true
    else withinTarget state target i

def emit (push : Push) (index : Nat) (state : Words 8) : Option Candidate :=
  if push.count.toNat ≤ index then none
  else if push.target.read 7 < state.read 7 then none
  else if withinTarget state push.target 8 then some ⟨push.lo index,push.hi index,state⟩
  else none

variable {g : Workgroup}

/-- The loop over the rounds, by all invocations: their registers, and the words that the exchange
keeps. `body` is a round of one lane, from the word that says which line it reads. -/
def lockstep (e : Exchange g) (rounds : Nat) (body : Nat → Nat → Word → Regs → Regs)
    (mix : Vector Regs g.width) : Vector Regs g.width × Words g.width :=
  upTo rounds (mix,Words.zeros g.width) fun r s =>
    let (read,kept) := e.broadcast s.2 (s.1.map fun regs => regs.read 0) (r % kLanes)
    (Vector.ofFn fun i => body r (e.lane i) (read.get i) (s.1.get i),kept)

def foldLanes (e : Exchange g) (laneHash : Words g.width) (i : Fin g.width) : Words 8 :=
  let kept := e.publish laneHash
  let mixHash := upTo 8 (Words.zeros 8) fun i mixHash => mixHash.write i kFnvOffsetBasis
  upTo kLanes mixHash fun l mixHash =>
    mixHash.write (l % 8) (fnv1a (mixHash.read (l % 8)) ((e.published kept l).get i))

/-- `main`, where `seed` is what each invocation has of its hash's first keccak. -/
def main (e : Exchange g) (c : Constants) (push : Push) (seed : Fin g.width → Nat → Word)
    (body : Nat → Nat → Word → Regs → Regs) (i : Fin g.width) : Outcome :=
  let mix := Vector.ofFn fun i => seedLane c (seed i) (e.lane i)
  let mix := (lockstep e c.kRounds.toNat body mix).1
  let laneHash := mix.map fun regs =>
    upTo c.kRegs.toNat kFnvOffsetBasis fun i h => fnv1a h (regs.read i)
  let mixHash := foldLanes e laneHash i
  if e.lane i ≠ 0 then ⟨mixHash,none,none⟩
  else
    let state := stateOf (lastOf c (seed i) mixHash)
    ⟨mixHash,some state,emit push (e.nonceIndex i) state⟩

end VkMiner.Progpow
