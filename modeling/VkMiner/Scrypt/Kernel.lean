import Mathlib.Logic.Function.Basic
import VkMiner.Lib.Cells
import VkMiner.Scrypt.Host
import VkMiner.Sha256d.Kernel
set_option autoImplicit false

/-! The scrypt kernel: what an invocation works out by itself, and the two loops that it goes
through beside all the others, over one buffer. -/

namespace VkMiner.Scrypt.Glsl
open Loops Sha256
open Progpow (Candidate)
open Progpow.Glsl (bswap32)
open Sha256d (Word)
open Sha256d.Glsl (sha256Iv sha256K rotr32 sha256Ch sha256Maj sha256BigS0 sha256BigS1
  sha256SmallS0 sha256SmallS1)

def kN : Word := 1024

def kBlockWords : Word := 32

def kScratchWords : Word := kN * kBlockWords

/-! ### SHA-256 over a window of sixteen words -/

structure Rolling where
  v : Vars
  w : Words 16

def sha256Round (k w : Word) (v : Vars) : Vars :=
  let t1 := v.h + sha256BigS1 v.e + sha256Ch v.e v.f v.g + k + w
  let t2 := sha256BigS0 v.a + sha256Maj v.a v.b v.c
  ⟨t1 + t2,v.a,v.b,v.c,v.d + t1,v.e,v.f,v.g⟩

/-- `w[i & 15] += ..` -/
def sha256Roll (i : Nat) (w : Words 16) : Words 16 :=
  w.write (i &&& 15) (w.read (i &&& 15) + (sha256SmallS0 (w.read ((i + 1) &&& 15)) +
    w.read ((i + 9) &&& 15) + sha256SmallS1 (w.read ((i + 14) &&& 15))))

def sha256Pass (i : Nat) (s : Rolling) : Rolling :=
  let w := if 16 ≤ i then sha256Roll i s.w else s.w
  ⟨sha256Round (sha256K.read i) (w.read (i &&& 15)) s.v,w⟩

def sha256Compress (state : Words 8) (w : Words 16) : Words 8 × Words 16 :=
  let s := upTo 64 ⟨.load state,w⟩ sha256Pass
  (s.v.feed state,s.w)

def sha256Init : Words 8 := upTo 8 (Words.zeros 8) fun i state => state.write i (sha256Iv.read i)

/-! ### HMAC and PBKDF2 -/

def headerTail (push : ScryptPush) (nonce : Word) (w : Words 16) : Words 16 :=
  let w := (w.write 0 (push.header.read 16)).write 1 (push.header.read 17)
  (w.write 2 (push.header.read 18)).write 3 nonce

def headerBlock (push : ScryptPush) (w : Words 16) : Words 16 :=
  upTo 16 w fun i w => w.write i (push.header.read i)

def headerKey (push : ScryptPush) (nonce : Word) : Words 8 :=
  let (key,w) := sha256Compress sha256Init (headerBlock push (Words.zeros 16))
  let w := (headerTail push nonce w).write 4 0x80000000
  let w := upTo 10 w fun i w => w.write (5 + i) 0
  (sha256Compress key (w.write 15 640)).1

def padState (key : Words 8) (pad : Word) (w : Words 16) : Words 8 × Words 16 :=
  let w := upTo 8 w fun i w => w.write i (key.read i ^^^ pad)
  let w := upTo 8 w fun i w => w.write (8 + i) pad
  sha256Compress sha256Init w

structure Keys where
  ipad : Words 8
  opad : Words 8

def hmacKeys (push : ScryptPush) (nonce : Word) : Keys :=
  let key := headerKey push nonce
  let (ipad,w) := padState key 0x36363636 (Words.zeros 16)
  ⟨ipad,(padState key 0x5c5c5c5c w).1⟩

def hmacOuter (opad inner : Words 8) : Words 8 :=
  let w := upTo 8 (Words.zeros 16) fun i w => w.write i (inner.read i)
  let w := w.write 8 0x80000000
  let w := upTo 6 w fun i w => w.write (9 + i) 0
  (sha256Compress opad (w.write 15 768)).1

def expandBlock (push : ScryptPush) (nonce : Word) (opad prefixed : Words 8) (blk : Nat)
    (s : Words 16 × Words 32) : Words 16 × Words 32 :=
  let w := ((headerTail push nonce s.1).write 4 (BitVec.ofNat 32 blk)).write 5 0x80000000
  let w := upTo 9 w fun i w => w.write (6 + i) 0
  let (inner,w) := sha256Compress prefixed (w.write 15 1184)
  let mac := hmacOuter opad inner
  (w,upTo 8 s.2 fun i b => b.write ((blk - 1)*8 + i) (bswap32 (mac.read i)))

def pbkdf2Expand (push : ScryptPush) (nonce : Word) (keys : Keys) : Words 32 :=
  let (prefixed,w) := sha256Compress keys.ipad (headerBlock push (Words.zeros 16))
  (upTo 4 (w,Words.zeros 32) fun i s =>
    expandBlock push nonce keys.opad prefixed (i + 1) s).2

def finishWords (b : Words 32) (first : Nat) (w : Words 16) : Words 16 :=
  upTo 16 w fun i w => w.write i (bswap32 (b.read (first + i)))

def pbkdf2Finish (keys : Keys) (b : Words 32) : Words 8 :=
  let (inner,w) := sha256Compress keys.ipad (finishWords b 0 (Words.zeros 16))
  let (inner,w) := sha256Compress inner (finishWords b 16 w)
  let w := (w.write 0 1).write 1 0x80000000
  let w := upTo 13 w fun i w => w.write (2 + i) 0
  let (inner,_) := sha256Compress inner (w.write 15 1568)
  let mac := hmacOuter keys.opad inner
  upTo 8 (Words.zeros 8) fun i digest => digest.write i (bswap32 (mac.read i))

/-! ### Salsa20/8 -/

def rotl32 (x : Word) (n : Nat) : Word := (x <<< n) ||| (x >>> (32 - n))

def salsaQr (x : Words 16) (a b c d : Nat) : Words 16 :=
  let x := x.write b (x.read b ^^^ rotl32 (x.read a + x.read d) 7)
  let x := x.write c (x.read c ^^^ rotl32 (x.read b + x.read a) 9)
  let x := x.write d (x.read d ^^^ rotl32 (x.read c + x.read b) 13)
  x.write a (x.read a ^^^ rotl32 (x.read d + x.read c) 18)

def salsaRounds (x : Words 16) : Words 16 :=
  let x := salsaQr (salsaQr x 0 4 8 12) 5 9 13 1
  let x := salsaQr (salsaQr x 10 14 2 6) 15 3 7 11
  let x := salsaQr (salsaQr x 0 1 2 3) 5 6 7 4
  salsaQr (salsaQr x 10 11 8 9) 15 12 13 14

def salsa20_8 (block : Words 16) : Words 16 :=
  let x := upTo 16 (Words.zeros 16) fun i x => x.write i (block.read i)
  let x := upTo 4 x fun _ x => salsaRounds x
  upTo 16 block fun i block => block.write i (block.read i + x.read i)

structure Blocks where
  b0 : Words 16
  b1 : Words 16

def blockMix (b : Blocks) : Blocks :=
  let x := salsa20_8 (upTo 16 (Words.zeros 16) fun k x => x.write k (b.b1.read k ^^^ b.b0.read k))
  let y := salsa20_8 (upTo 16 (Words.zeros 16) fun k y => y.write k (x.read k ^^^ b.b1.read k))
  ⟨upTo 16 b.b0 fun k b0 => b0.write k (x.read k),upTo 16 b.b1 fun k b1 => b1.write k (y.read k)⟩

/-! ### The scratchpads -/

structure Quad where
  x : Word
  y : Word
  z : Word
  w : Word
  deriving DecidableEq, Inhabited

/-- Where an invocation is: in the first loop or the second, with the pass of the outer loop and of
the inner one, or behind both. In the second it has the place it reads from. -/
inductive At where
  | fill (i k : Nat)
  | mix (i k : Nat) (o : Word)
  | done

structure Invocation where
  place : At
  b : Blocks

def quadOf (base i : Word) : Word := (base + i * kBlockWords) >>> 2

def integerify (base : Word) (b : Blocks) : Word := quadOf base (b.b1.read 0 &&& (kN - 1))

def quadAt (b : Words 16) (k : Nat) : Quad :=
  ⟨b.read (k*4),b.read (k*4 + 1),b.read (k*4 + 2),b.read (k*4 + 3)⟩

def layQuad (b : Words 16) (k : Nat) (v : Quad) : Words 16 :=
  let b := b.write (k*4) (b.read (k*4) ^^^ v.x)
  let b := b.write (k*4 + 1) (b.read (k*4 + 1) ^^^ v.y)
  let b := b.write (k*4 + 2) (b.read (k*4 + 2) ^^^ v.z)
  b.write (k*4 + 3) (b.read (k*4 + 3) ^^^ v.w)

def Invocation.step {n : Nat} (base : Word) (s : Invocation) (scratch : Cells Quad n) :
    Invocation × Cells Quad n :=
  match s.place with
  | .fill i k =>
    let o := quadOf base (BitVec.ofNat 32 i) + BitVec.ofNat 32 k
    let scratch := scratch.write o.toNat (quadAt s.b.b0 k)
    let scratch := scratch.write (o + 4).toNat (quadAt s.b.b1 k)
    if k + 1 < 4 then (⟨.fill i (k + 1),s.b⟩,scratch)
    else
      let b := blockMix s.b
      if i + 1 < kN.toNat then (⟨.fill (i + 1) 0,b⟩,scratch)
      else (⟨.mix 0 0 (integerify base b),b⟩,scratch)
  | .mix i k o =>
    let v0 := scratch.read (o + BitVec.ofNat 32 k).toNat
    let v1 := scratch.read (o + BitVec.ofNat 32 k + 4).toNat
    let b : Blocks := ⟨layQuad s.b.b0 k v0,layQuad s.b.b1 k v1⟩
    if k + 1 < 4 then (⟨.mix i (k + 1) o,b⟩,scratch)
    else
      let b := blockMix b
      if i + 1 < kN.toNat then (⟨.mix (i + 1) 0 (integerify base b),b⟩,scratch)
      else (⟨.done,b⟩,scratch)
  | .done => (s,scratch)

def Invocation.touches (base : Word) (s : Invocation) : List Word :=
  match s.place with
  | .fill i k =>
    let o := quadOf base (BitVec.ofNat 32 i) + BitVec.ofNat 32 k
    [o,o + 4]
  | .mix _ k o => [o + BitVec.ofNat 32 k,o + BitVec.ofNat 32 k + 4]
  | .done => []

/-! ### The invocations of a dispatch -/

def enters (push : ScryptPush) (index : Word) : Invocation :=
  let nonce := push.nonceStart + index
  let b := pbkdf2Expand push nonce (hmacKeys push nonce)
  ⟨.fill 0 0,⟨upTo 16 (Words.zeros 16) fun k b0 => b0.write k (b.read k),
    upTo 16 (Words.zeros 16) fun k b1 => b1.write k (b.read (16 + k))⟩⟩

def within (state target : Words 8) : Nat → Bool
  | 0 => true
  | i + 1 =>
    if target.read i < state.read i then false
    else if state.read i < target.read i then true
    else within state target i

def leaves (push : ScryptPush) (index : Word) (b : Blocks) : Option Candidate :=
  let nonce := push.nonceStart + index
  let words := upTo 16 (Words.zeros 32) fun k w =>
    (w.write k (b.b0.read k)).write (16 + k) (b.b1.read k)
  let state := pbkdf2Finish (hmacKeys push nonce) words
  if within state push.target 8 then some ⟨nonce,0,state⟩ else none

structure Running (n : Nat) where
  scratch : Cells Quad n
  inv : Word → Invocation

def begins {n : Nat} (push : ScryptPush) (scratch : Cells Quad n) : Running n :=
  ⟨scratch,enters push⟩

/-- A pass of one invocation. One that is past the dispatch has returned at once. -/
def Running.step {n : Nat} (push : ScryptPush) (s : Running n) (index : Word) : Running n :=
  if push.count ≤ index then s
  else
    let (inv,scratch) := (s.inv index).step (index * kScratchWords) s.scratch
    ⟨scratch,Function.update s.inv index inv⟩

/-- The dispatch, where the device lets its invocations go on in this order. -/
def run {n : Nat} (push : ScryptPush) (scratch : Cells Quad n) (order : List Word) : Running n :=
  order.foldl (Running.step push) (begins push scratch)

def Running.emitted {n : Nat} (push : ScryptPush) (s : Running n) (index : Word) :
    Option (Option Candidate) :=
  if push.count ≤ index then some none
  else
    match (s.inv index).place with
    | .done => some (leaves push index (s.inv index).b)
    | _ => none

end VkMiner.Scrypt.Glsl
