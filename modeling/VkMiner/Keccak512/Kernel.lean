import VkMiner.Keccak512.Host
import VkMiner.Sha3t.Kernel
set_option autoImplicit false

/-! The Keccak-512 stage of x11, over either kind of lane. -/

namespace VkMiner.Keccak512.Glsl
open Loops Cells Heavyhash.Glsl
open Sha3t.Glsl (sha3Keccakf)

section
variable {L : Type} [Inhabited L] (B : KLane L)

def startOf (s : Words 16) : Cells L 25 :=
  let a := upTo 8 (blank 25) fun i a => a.write i (B.klane (s.read (2*i)) (s.read (2*i + 1)))
  let a := a.write 8 (B.klane 0x01 0x80000000)
  upTo 16 a fun i a => a.write (9 + i) (B.klane 0 0)

def x11Keccak (s : Words 16) : Words 16 :=
  let a := sha3Keccakf B (startOf B s)
  upTo 8 s fun i s => (s.write (2*i) (B.klo (a.read i))).write (2*i + 1) (B.khi (a.read i))

end

/-- The two kinds of lane of `sha3.glsl`. -/
inductive Lanes
  | int64
  | pairs
  deriving DecidableEq

def Lanes.x11Keccak : Lanes → Words 16 → Words 16
  | int64 => Glsl.x11Keccak Heavyhash.Glsl.int64
  | pairs => Glsl.x11Keccak Heavyhash.Glsl.pairs

end VkMiner.Keccak512.Glsl
