import Mathlib.Tactic.IntervalCases
import VkMiner.Lib.Sha256
set_option autoImplicit false

/-! The SHA-256 of the host, and what it works out for a dispatch before the device is asked. -/

namespace VkMiner.Sha256d
open Loops Sha256

abbrev Word := BitVec 32

abbrev Byte := BitVec 8

def K : Words 64 :=
  #v[0x428a2f98,0x71374491,0xb5c0fbcf,0xe9b5dba5,0x3956c25b,0x59f111f1,0x923f82a4,0xab1c5ed5,
    0xd807aa98,0x12835b01,0x243185be,0x550c7dc3,0x72be5d74,0x80deb1fe,0x9bdc06a7,0xc19bf174,
    0xe49b69c1,0xefbe4786,0x0fc19dc6,0x240ca1cc,0x2de92c6f,0x4a7484aa,0x5cb0a9dc,0x76f988da,
    0x983e5152,0xa831c66d,0xb00327c8,0xbf597fc7,0xc6e00bf3,0xd5a79147,0x06ca6351,0x14292967,
    0x27b70a85,0x2e1b2138,0x4d2c6dfc,0x53380d13,0x650a7354,0x766a0abb,0x81c2c92e,0x92722c85,
    0xa2bfe8a1,0xa81a664b,0xc24b8b70,0xc76c51a3,0xd192e819,0xd6990624,0xf40e3585,0x106aa070,
    0x19a4c116,0x1e376c08,0x2748774c,0x34b0bcb5,0x391c0cb3,0x4ed8aa4a,0x5b9cca4f,0x682e6ff3,
    0x748f82ee,0x78a5636f,0x84c87814,0x8cc70208,0x90befffa,0xa4506ceb,0xbef9a3f7,0xc67178f2]

def IV : Words 8 :=
  #v[0x6a09e667,0xbb67ae85,0x3c6ef372,0xa54ff53a,0x510e527f,0x9b05688c,0x1f83d9ab,0x5be0cd19]

def ror (x : Word) (n : Nat) : Word := (x >>> n) ||| (x <<< (32 - n))

/-- `be32enc`. -/
def beBytes (x : Word) : List Byte :=
  [(x >>> 24).setWidth 8,(x >>> 16).setWidth 8,(x >>> 8).setWidth 8,x.setWidth 8]

def encode (ws : List Word) : List Byte := ws.flatMap beBytes

def wordAt (block : List Byte) (i : Nat) : Word :=
  ((block.getD (i*4) 0).setWidth 32 <<< 24) ||| ((block.getD (i*4 + 1) 0).setWidth 32 <<< 16) |||
    ((block.getD (i*4 + 2) 0).setWidth 32 <<< 8) ||| (block.getD (i*4 + 3) 0).setWidth 32

/-- The word `i` of a digest as the host's memory has it, its lowest byte first. -/
def leWordAt (bytes : List Byte) (i : Nat) : Word :=
  (bytes.getD (i*4) 0).setWidth 32 ||| ((bytes.getD (i*4 + 1) 0).setWidth 32 <<< 8) |||
    ((bytes.getD (i*4 + 2) 0).setWidth 32 <<< 16) ||| ((bytes.getD (i*4 + 3) 0).setWidth 32 <<< 24)

def expandWord {n : Nat} (w : Words n) (i : Nat) : Words n :=
  let s0 := ror (w.read (i - 15)) 7 ^^^ ror (w.read (i - 15)) 18 ^^^ (w.read (i - 15) >>> 3)
  let s1 := ror (w.read (i - 2)) 17 ^^^ ror (w.read (i - 2)) 19 ^^^ (w.read (i - 2) >>> 10)
  w.write i (w.read (i - 16) + s0 + w.read (i - 7) + s1)

def round (k w : Word) (v : Vars) : Vars :=
  let s1 := ror v.e 6 ^^^ ror v.e 11 ^^^ ror v.e 25
  let ch := (v.e &&& v.f) ^^^ (~~~v.e &&& v.g)
  let t1 := v.h + s1 + ch + k + w
  let s0 := ror v.a 2 ^^^ ror v.a 13 ^^^ ror v.a 22
  let maj := (v.a &&& v.b) ^^^ (v.a &&& v.c) ^^^ (v.b &&& v.c)
  let t2 := s0 + maj
  ⟨t1 + t2,v.a,v.b,v.c,v.d + t1,v.e,v.f,v.g⟩

def sha256Transform (state : Words 8) (block : List Byte) : Words 8 :=
  let w := upTo 16 (Words.zeros 64) fun i w => w.write i (wordAt block i)
  let w := upTo 48 w fun i w => expandWord w (16 + i)
  let v := upTo 64 (Vars.load state) fun i v => round (K.read i) (w.read i) v
  v.feed state

def wholeBlocks (state : Words 8) (p : List Byte) : Words 8 × List Byte :=
  if 64 ≤ p.length then wholeBlocks (sha256Transform state (p.take 64)) (p.drop 64)
  else (state,p)
termination_by p.length

def lengthBytes (len : Nat) : List Byte :=
  let bits := BitVec.ofNat 64 len * 8
  [(bits >>> 56).setWidth 8,(bits >>> 48).setWidth 8,(bits >>> 40).setWidth 8,
    (bits >>> 32).setWidth 8,(bits >>> 24).setWidth 8,(bits >>> 16).setWidth 8,
    (bits >>> 8).setWidth 8,bits.setWidth 8]

def tailOf (rest : List Byte) (len : Nat) : List Byte :=
  let tailLen := if rest.length < 56 then 64 else 128
  rest ++ 0x80 :: List.replicate (tailLen - rest.length - 9) 0 ++ lengthBytes len

def sha256Full (data : List Byte) : List Byte :=
  let (state,rest) := wholeBlocks IV data
  let tail := tailOf rest data.length
  let state := sha256Transform state tail
  let state := if rest.length < 56 then state else sha256Transform state (tail.drop 64)
  encode state.toList

def sha256d (data : List Byte) : List Byte := sha256Full (sha256Full data)

def sha256Midstate (words : List Word) : Words 8 := sha256Transform IV (encode (words.take 16))

def nonceWords (tail : Words 3) : Words 20 :=
  let w := (((Words.zeros 20).write 0 (tail.read 0)).write 1 (tail.read 1)).write 2 (tail.read 2)
  let w := (w.write 3 0).write 4 0x80000000
  let w := upTo 10 w fun i w => w.write (5 + i) 0
  w.write 15 0x280

/-- The variables that enter round 4 and the message words from 16 to 19, at a nonce of zero. -/
def sha256AdvanceNonceBlock (state : Words 8) (tail : Words 3) : Words 8 × Words 4 :=
  let w := upTo 4 (nonceWords tail) fun i w => expandWord w (16 + i)
  let v := upTo 4 (Vars.load state) fun i v => round (K.read i) (w.read i) v
  (#v[v.a,v.b,v.c,v.d,v.e,v.f,v.g,v.h],
    upTo 4 (Words.zeros 4) fun i sched => sched.write i (w.read (16 + i)))

structure Dispatch where
  header : Option (Words 20)
  target : Option (Words 8)
  nonceStart : BitVec 64
  count : Word
  capacity : Word

structure Sha256dPush where
  midstate : Words 8
  advanced : Words 8
  sched : Words 4
  target : Words 8
  nonceStart : Word
  count : Word
  capacity : Word

def pushBytes : Nat := 124

def prepare (dispatch : Dispatch) (capacity : Nat) : Option Sha256dPush :=
  match dispatch.header,dispatch.target with
  | some header,some target =>
    if capacity < pushBytes then none
    else
      let tail := upTo 3 (Words.zeros 3) fun i tail => tail.write i (header.read (16 + i))
      let midstate := sha256Midstate header.toList
      let (advanced,sched) := sha256AdvanceNonceBlock midstate tail
      some ⟨midstate,advanced,sched,target,dispatch.nonceStart.setWidth 32,dispatch.count,
        dispatch.capacity⟩
  | _,_ => none

def hash (header : Words 20) (nonce : BitVec 64) : Words 8 :=
  let digest := sha256d (encode (header.toList.take 19 ++ [nonce.setWidth 32]))
  upTo 8 (Words.zeros 8) fun i out => out.write i (leWordAt digest i)

def fulltest (hash target : Words 8) : Nat → Bool
  | 0 => true
  | i + 1 =>
    if target.read i < hash.read i then false
    else if hash.read i < target.read i then true
    else fulltest hash target i

/-- `verify`: whether a nonce is a share, and its hash. -/
def verify (header : Words 20) (nonce : BitVec 64) (target : Words 8) : Bool × Words 8 :=
  (fulltest (hash header nonce) target 8,hash header nonce)

end VkMiner.Sha256d
