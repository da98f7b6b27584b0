import VkMiner.Blake2s.Host
import VkMiner.Heavyhash.Kernel
set_option autoImplicit false

/-! The blake2s kernel. -/

namespace VkMiner.Blake2s.Glsl
open Loops
open Progpow (Candidate)
open Progpow.Glsl (bswap32)
open Heavyhash.Glsl (within)
open Sha256d (Word)

def blake2sIv : Words 8 :=
  Words.ofList
    [0x6a09e667,0xbb67ae85,0x3c6ef372,0xa54ff53a,0x510e527f,0x9b05688c,0x1f83d9ab,0x5be0cd19]

def blake2sG (v : Words 16) (a b c d : Nat) (x y : Word) : Words 16 :=
  let v := v.write a (v.read a + (v.read b + x))
  let v := v.write d (rotr32 (v.read d ^^^ v.read a) 16)
  let v := v.write c (v.read c + v.read d)
  let v := v.write b (rotr32 (v.read b ^^^ v.read c) 12)
  let v := v.write a (v.read a + (v.read b + y))
  let v := v.write d (rotr32 (v.read d ^^^ v.read a) 8)
  let v := v.write c (v.read c + v.read d)
  v.write b (rotr32 (v.read b ^^^ v.read c) 7)

def blake2sRound (x0 x1 x2 x3 x4 x5 x6 x7 x8 x9 xa xb xc xd xe xf : Word) (v : Words 16) :
    Words 16 :=
  let v := blake2sG v 0 4 8 12 x0 x1
  let v := blake2sG v 1 5 9 13 x2 x3
  let v := blake2sG v 2 6 10 14 x4 x5
  let v := blake2sG v 3 7 11 15 x6 x7
  let v := blake2sG v 0 5 10 15 x8 x9
  let v := blake2sG v 1 6 11 12 xa xb
  let v := blake2sG v 2 7 8 13 xc xd
  blake2sG v 3 4 9 14 xe xf

def blake2sInit (h : Words 8) (counter : Word) (last : Bool) : Words 16 :=
  #v[h.read 0,h.read 1,h.read 2,h.read 3,h.read 4,h.read 5,h.read 6,h.read 7,
    blake2sIv.read 0,blake2sIv.read 1,blake2sIv.read 2,blake2sIv.read 3,
    blake2sIv.read 4 ^^^ counter,blake2sIv.read 5,
    if last then ~~~blake2sIv.read 6 else blake2sIv.read 6,blake2sIv.read 7]

/-- The ten rounds, each a line of the kernel; `z` is the padding. -/
def lines (m0 m1 m2 m3 z : Word) (v : Words 16) : Words 16 :=
  let v := blake2sRound m0 m1 m2 m3 z z z z z z z z z z z z v
  let v := blake2sRound z z z z z z z z m1 z m0 m2 z z z m3 v
  let v := blake2sRound z z z m0 z m2 z z z z m3 z z m1 z z v
  let v := blake2sRound z z m3 m1 z z z z m2 z z z z m0 z z v
  let v := blake2sRound z m0 z z m2 z z z z m1 z z z z m3 z v
  let v := blake2sRound m2 z z z m0 z z m3 z z z z z z m1 z v
  let v := blake2sRound z z m1 z z z z z m0 z z m3 z m2 z z v
  let v := blake2sRound z z z z z m1 m3 z z m0 z z z z m2 z v
  let v := blake2sRound z z z z z m3 m0 z z m2 z z m1 z z z v
  blake2sRound z m2 z z z z m1 z z z z z m3 z z m0 v

def main (push : Blake2sPush) (index : Word) : Option Candidate :=
  if push.count ≤ index then none
  else
    let nonce := push.nonceStart + index
    let v := lines (push.block.read 0) (push.block.read 1) (push.block.read 2) (bswap32 nonce) 0
      (blake2sInit push.midstate 80 true)
    if push.target.read 7 < push.midstate.read 7 ^^^ v.read 7 ^^^ v.read 15 then none
    else
      let state := upTo 8 (Words.zeros 8) fun i state =>
        state.write i (push.midstate.read i ^^^ v.read i ^^^ v.read (i + 8))
      if within state push.target 8 then some ⟨nonce,0,state⟩ else none

end VkMiner.Blake2s.Glsl
