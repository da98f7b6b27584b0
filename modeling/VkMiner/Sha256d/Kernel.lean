import VkMiner.Progpow.Kernel
import VkMiner.Sha256d.Host
set_option autoImplicit false

/-! The sha256d kernel, macro for macro. -/

namespace VkMiner.Sha256d.Glsl
open Loops Sha256
open Progpow (Candidate)
open Progpow.Glsl (bswap32)

def sha256Iv : Words 8 :=
  Words.ofList [0x6a09e667,0xbb67ae85,0x3c6ef372,0xa54ff53a,0x510e527f,0x9b05688c,0x1f83d9ab,0x5be0cd19]

def sha256K : Words 64 :=
  Words.ofList [0x428a2f98,0x71374491,0xb5c0fbcf,0xe9b5dba5,0x3956c25b,0x59f111f1,0x923f82a4,0xab1c5ed5,
    0xd807aa98,0x12835b01,0x243185be,0x550c7dc3,0x72be5d74,0x80deb1fe,0x9bdc06a7,0xc19bf174,
    0xe49b69c1,0xefbe4786,0x0fc19dc6,0x240ca1cc,0x2de92c6f,0x4a7484aa,0x5cb0a9dc,0x76f988da,
    0x983e5152,0xa831c66d,0xb00327c8,0xbf597fc7,0xc6e00bf3,0xd5a79147,0x06ca6351,0x14292967,
    0x27b70a85,0x2e1b2138,0x4d2c6dfc,0x53380d13,0x650a7354,0x766a0abb,0x81c2c92e,0x92722c85,
    0xa2bfe8a1,0xa81a664b,0xc24b8b70,0xc76c51a3,0xd192e819,0xd6990624,0xf40e3585,0x106aa070,
    0x19a4c116,0x1e376c08,0x2748774c,0x34b0bcb5,0x391c0cb3,0x4ed8aa4a,0x5b9cca4f,0x682e6ff3,
    0x748f82ee,0x78a5636f,0x84c87814,0x8cc70208,0x90befffa,0xa4506ceb,0xbef9a3f7,0xc67178f2]

def rotr32 (x : Word) (n : Nat) : Word := (x >>> n) ||| (x <<< (32 - n))

def sha256Ch (x y z : Word) : Word := (x &&& y) ^^^ (~~~x &&& z)

def sha256Maj (x y z : Word) : Word := (x &&& y) ^^^ (x &&& z) ^^^ (y &&& z)

def sha256BigS0 (x : Word) : Word := rotr32 x 2 ^^^ rotr32 x 13 ^^^ rotr32 x 22

def sha256BigS1 (x : Word) : Word := rotr32 x 6 ^^^ rotr32 x 11 ^^^ rotr32 x 25

def sha256SmallS0 (x : Word) : Word := rotr32 x 7 ^^^ rotr32 x 18 ^^^ (x >>> 3)

def sha256SmallS1 (x : Word) : Word := rotr32 x 17 ^^^ rotr32 x 19 ^^^ (x >>> 10)

/-! ### The rounds, which rotate the names of the variables instead of their values -/

def sha256dRound (a b c d e f g h k w : Word) : Word × Word :=
  let t1 := h + sha256BigS1 e + sha256Ch e f g + k + w
  let t2 := sha256BigS0 a + sha256Maj a b c
  (d + t1,t1 + t2)

def sha256dRound4 (w : Words 64) (i : Nat) (v : Vars) : Vars :=
  let ⟨a,b,c,d,e,f,g,h⟩ := v
  let (d,h) := sha256dRound a b c d e f g h (sha256K.read (i + 0)) (w.read (i + 0))
  let (c,g) := sha256dRound h a b c d e f g (sha256K.read (i + 1)) (w.read (i + 1))
  let (b,f) := sha256dRound g h a b c d e f (sha256K.read (i + 2)) (w.read (i + 2))
  let (a,e) := sha256dRound f g h a b c d e (sha256K.read (i + 3)) (w.read (i + 3))
  ⟨a,b,c,d,e,f,g,h⟩

def sha256dRound4Shifted (w : Words 64) (i : Nat) (v : Vars) : Vars :=
  let ⟨a,b,c,d,e,f,g,h⟩ := v
  let (h,d) := sha256dRound e f g h a b c d (sha256K.read (i + 0)) (w.read (i + 0))
  let (g,c) := sha256dRound d e f g h a b c (sha256K.read (i + 1)) (w.read (i + 1))
  let (f,b) := sha256dRound c d e f g h a b (sha256K.read (i + 2)) (w.read (i + 2))
  let (e,a) := sha256dRound b c d e f g h a (sha256K.read (i + 3)) (w.read (i + 3))
  ⟨a,b,c,d,e,f,g,h⟩

def sha256dRound8 (w : Words 64) (i : Nat) (v : Vars) : Vars :=
  sha256dRound4Shifted w (i + 4) (sha256dRound4 w i v)

def sha256dRoundsTo55 (w : Words 64) (v : Vars) : Vars :=
  let v := sha256dRound8 w 8 (sha256dRound8 w 0 v)
  let v := sha256dRound8 w 24 (sha256dRound8 w 16 v)
  let v := sha256dRound8 w 40 (sha256dRound8 w 32 v)
  sha256dRound8 w 48 v

def sha256dRounds56_59 (w : Words 64) (v : Vars) : Vars := sha256dRound4 w 56 v

def sha256dRounds60_63 (w : Words 64) (v : Vars) : Vars := sha256dRound4Shifted w 60 v

def sha256dRoundsFrom4 (w : Words 64) (v : Vars) : Vars :=
  let v := sha256dRound8 w 12 (sha256dRound8 w 4 v)
  let v := sha256dRound8 w 28 (sha256dRound8 w 20 v)
  let v := sha256dRound8 w 44 (sha256dRound8 w 36 v)
  sha256dRound4 w 60 (sha256dRound8 w 52 v)

/-! ### The schedule -/

def sha256dSched (w : Words 64) (i : Nat) : Words 64 :=
  w.write i (w.read (i - 16) + sha256SmallS0 (w.read (i - 15)) + w.read (i - 7) +
    sha256SmallS1 (w.read (i - 2)))

def sha256dSched4 (w : Words 64) (i : Nat) : Words 64 :=
  sha256dSched (sha256dSched (sha256dSched (sha256dSched w (i + 0)) (i + 1)) (i + 2)) (i + 3)

def sha256dSched8 (w : Words 64) (i : Nat) : Words 64 := sha256dSched4 (sha256dSched4 w i) (i + 4)

def sha256dScheduleTo60 (w : Words 64) : Words 64 :=
  let w := sha256dSched8 (sha256dSched8 w 16) 24
  let w := sha256dSched8 (sha256dSched8 w 32) 40
  let w := sha256dSched4 (sha256dSched8 w 48) 56
  sha256dSched w 60

def sha256dSchedule61_63 (w : Words 64) : Words 64 :=
  sha256dSched (sha256dSched (sha256dSched w 61) 62) 63

def sha256dSchedule20_63 (w : Words 64) : Words 64 :=
  let w := sha256dSched8 (sha256dSched4 w 20) 24
  let w := sha256dSched8 (sha256dSched8 w 32) 40
  sha256dSched8 (sha256dSched8 w 48) 56

/-! ### The invocation -/

def assign (w : Words 64) (i : Nat) : List Word → Words 64
  | [] => w
  | x :: xs => assign (w.write i x) (i + 1) xs

/-- The words of the first compression's message that the kernel has, over whatever is there. -/
def firstWords (garbage : Words 64) (push : Sha256dPush) (nonce : Word) : Words 64 :=
  let w := assign garbage 4 [0x80000000,0,0,0,0,0,0,0,0,0,0,0x280]
  let w := assign w 16 [push.sched.read 0,push.sched.read 1,
    push.sched.read 2 + sha256SmallS0 nonce,push.sched.read 3 + nonce]
  sha256dSchedule20_63 w

def entering (push : Sha256dPush) (nonce : Word) : Vars :=
  ⟨push.advanced.read 0 + nonce,push.advanced.read 1,push.advanced.read 2,push.advanced.read 3,
    push.advanced.read 4 + nonce,push.advanced.read 5,push.advanced.read 6,push.advanced.read 7⟩

def firstDigest (push : Sha256dPush) (v : Vars) : Words 8 :=
  #v[push.midstate.read 0 + v.e,push.midstate.read 1 + v.f,push.midstate.read 2 + v.g,
    push.midstate.read 3 + v.h,push.midstate.read 4 + v.a,push.midstate.read 5 + v.b,
    push.midstate.read 6 + v.c,push.midstate.read 7 + v.d]

def secondWords (w : Words 64) (first : Words 8) : Words 64 :=
  let w := assign w 0 [first.read 0,first.read 1,first.read 2,first.read 3,first.read 4,
    first.read 5,first.read 6,first.read 7,0x80000000,0,0,0,0,0,0,0x100]
  sha256dScheduleTo60 w

def topWord (w : Words 64) (v : Vars) : Word :=
  let t60 := v.d + sha256BigS1 v.a + sha256Ch v.a v.b v.c + sha256K.read 60 + w.read 60
  bswap32 (sha256Iv.read 7 + v.h + t60)

def stateOf (v : Vars) : Words 8 :=
  #v[sha256Iv.read 0 + v.a,sha256Iv.read 1 + v.b,sha256Iv.read 2 + v.c,sha256Iv.read 3 + v.d,
    sha256Iv.read 4 + v.e,sha256Iv.read 5 + v.f,sha256Iv.read 6 + v.g,sha256Iv.read 7 + v.h]

def meets (state target : Words 8) : Nat → Bool
  | 0 => true
  | i + 1 =>
    let word := bswap32 (state.read i)
    if target.read i < word then false
    else if word < target.read i then true
    else meets state target i

/-- `main`, by the invocation `index`, with what it emits. `garbage` is what the array of words
holds before anything is written to it. -/
def main (garbage : Words 64) (push : Sha256dPush) (index : Word) : Option Candidate :=
  if push.count ≤ index then none
  else
    let nonce := push.nonceStart + index
    let w := firstWords garbage push nonce
    let v := sha256dRoundsFrom4 w (entering push nonce)
    let w := secondWords w (firstDigest push v)
    let v := sha256dRoundsTo55 w (Vars.load sha256Iv)
    let v := sha256dRounds56_59 w v
    if push.target.read 7 < topWord w v then none
    else
      let w := sha256dSchedule61_63 w
      let v := sha256dRounds60_63 w v
      let state := stateOf v
      if meets state push.target 8 then
        some ⟨nonce,0,upTo 8 (Words.zeros 8) fun i hash => hash.write i (bswap32 (state.read i))⟩
      else none

end VkMiner.Sha256d.Glsl
