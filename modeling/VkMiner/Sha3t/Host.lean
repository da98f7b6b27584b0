import VkMiner.Heavyhash.Host
set_option autoImplicit false

/-! Three SHA3-256 in a row, as the host has them, and what a dispatch of sha3t is prepared with.
The permutation and its tables are word for word those of heavyhash. -/

namespace VkMiner.Sha3t
open Loops Cells Heavyhash
open Sha256d (Byte Dispatch encode leWordAt)

def sha3_256 (p : List Byte) : List Byte :=
  let a := keccakf (absorb p)
  (List.range 4).flatMap fun i => (List.range 8).map fun j => (a.read i >>> (8 * j)).setWidth 8

def sha3t80 (header : List Byte) : Words 8 :=
  let digest := sha3_256 header
  let digest := sha3_256 digest
  let digest := sha3_256 digest
  upTo 8 (Words.zeros 8) fun i out => out.write i (leWordAt digest i)

def hash (header : Words 20) (nonce : BitVec 64) : Words 8 :=
  sha3t80 (encode (header.toList.take 19 ++ [nonce.setWidth 32]))

abbrev Sha3tPush := HeavyhashPush

def pushBytes : Nat := 120

def prepare (dispatch : Dispatch) (capacity : Nat) : Option Sha3tPush :=
  match dispatch.header,dispatch.target with
  | some header,some target =>
    if capacity < pushBytes then none
    else
      let wire := encode (header.toList.take 19)
      let block := upTo 19 (Words.zeros 19) fun i block => block.write i (leWordAt wire i)
      some ⟨block,target,dispatch.nonceStart.setWidth 32,dispatch.count,dispatch.capacity⟩
  | _,_ => none

end VkMiner.Sha3t
