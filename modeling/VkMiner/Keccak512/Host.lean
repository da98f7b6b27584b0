import VkMiner.Heavyhash.Host
set_option autoImplicit false

/-! Keccak-512 of any message, as the host has it. Its tables are those of heavyhash. -/

namespace VkMiner.Keccak512
open Loops Cells Heavyhash
open Sha256d (Byte)

def mixColumns (a : Cells Word64 25) : Cells Word64 25 :=
  let c : Cells Word64 5 := upTo 5 (blank 5) fun x c => c.write x (Keccak.parity lanes a x)
  upTo 5 a fun x a =>
    let d := c.read ((x + 4) % 5) ^^^ rotl64 (c.read ((x + 1) % 5)) 1
    upTo 5 a fun y a => a.write (x + 5*y) (a.read (x + 5*y) ^^^ d)

def round (a : Cells Word64 25) (r : Nat) : Cells Word64 25 :=
  let a := mixColumns a
  let a := Keccak.chi lanes a (Keccak.rhoPi lanes kRho a)
  a.write 0 (a.read 0 ^^^ kRc.read r)

def keccakf (a : Cells Word64 25) : Cells Word64 25 := upTo 24 a fun r a => round a r

def keccak512Rate : Nat := 72

def keccakAbsorb (a : Cells Word64 25) (block : List Byte) : Cells Word64 25 :=
  keccakf (upTo (keccak512Rate / 8) a fun i a => a.write i (a.read i ^^^ le64 (block.drop (8*i))))

def wholeBlocks (a : Cells Word64 25) (p : List Byte) : Cells Word64 25 × List Byte :=
  if keccak512Rate ≤ p.length then
    wholeBlocks (keccakAbsorb a (p.take keccak512Rate)) (p.drop keccak512Rate)
  else (a,p)
termination_by p.length
decreasing_by
  rw [List.length_drop]
  simp only [keccak512Rate] at *
  omega

def keccak512Full (data : List Byte) : List Byte :=
  let (a,rest) := wholeBlocks (blank 25) data
  let last := rest ++ List.replicate (keccak512Rate - rest.length) 0
  let last := last.set rest.length (last.getD rest.length 0 ^^^ 0x01)
  let last := last.set (keccak512Rate - 1) (last.getD (keccak512Rate - 1) 0 ^^^ 0x80)
  let a := keccakAbsorb a last
  (List.range 8).flatMap fun i => (List.range 8).map fun k => (a.read i >>> (8*k)).setWidth 8

end VkMiner.Keccak512
