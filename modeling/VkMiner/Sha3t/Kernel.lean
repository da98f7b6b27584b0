import VkMiner.Heavyhash.Kernel
import VkMiner.Sha3t.Host
set_option autoImplicit false

/-! The sha3t kernel, over either kind of lane. -/

namespace VkMiner.Sha3t.Glsl
open Loops Cells Heavyhash Heavyhash.Glsl
open Progpow (Candidate)
open Sha256d (Word)

section
variable {L : Type} [Inhabited L] (B : KLane L)

def sha3Keccakf (a : Cells L 25) : Cells L 25 := upTo 24 a fun r a => hhRound B a r

def sha3_256_32 (a : Cells L 25) : Cells L 25 :=
  let d0 := a.read 0
  let d1 := a.read 1
  let d2 := a.read 2
  let d3 := a.read 3
  let a := upTo 25 a fun i a => a.write i (B.klane 0 0)
  let a := (((a.write 0 d0).write 1 d1).write 2 d2).write 3 d3
  let a := a.write 4 (B.klane 0x06 0)
  let a := a.write 16 (B.klane 0 0x80000000)
  sha3Keccakf B a

/-- The state after the three hashes. The first is of the header, as heavyhash absorbs it. -/
def thirdState (push : Sha3tPush) (nonce : Word) : Cells L 25 :=
  sha3_256_32 B (sha3_256_32 B (sha3Keccakf B (headerState B push nonce)))

def main (push : Sha3tPush) (index : Word) : Option Candidate :=
  if push.count ≤ index then none
  else
    let nonce := push.nonceStart + index
    let a := thirdState B push nonce
    if push.target.read 7 < B.khi (a.read 3) then none
    else
      let state := lowWords B a
      if within state push.target 8 then some ⟨nonce,0,state⟩ else none

end

inductive Module
  | int64
  | pairs
  deriving DecidableEq

def Module.main : Module → Sha3tPush → Word → Option Candidate
  | int64 => Glsl.main Heavyhash.Glsl.int64
  | pairs => Glsl.main Heavyhash.Glsl.pairs

end VkMiner.Sha3t.Glsl
