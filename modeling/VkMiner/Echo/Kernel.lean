import VkMiner.Aes.Kernel
import VkMiner.Progpow.Kernel
set_option autoImplicit false

/-! ECHO-512 as the kernels of x11 and qubit have it, whole and as far as their screen reads it. -/

namespace VkMiner.Echo.Glsl
open Loops
open Sha256d (Word)
open Aes.Glsl (Form aesRound2 aesXtime4)

/-! ### The compression -/

def echo512Key (cnt : Words 4) (add : Word) : Words 4 :=
  let key := (Words.zeros 4).write 0 (cnt.read 0 + add)
  let c : Word := if key.read 0 < add then 1 else 0
  let key := key.write 1 (cnt.read 1 + c)
  let c : Word := if c = 1 ∧ key.read 1 = 0 then 1 else 0
  let key := key.write 2 (cnt.read 2 + c)
  let c : Word := if c = 1 ∧ key.read 2 = 0 then 1 else 0
  key.write 3 (cnt.read 3 + c)

def echo512SubwordsPair (form : Form) (w : Words 64) (cnt : Words 4) (r a b : Nat) : Words 64 :=
  let x := upTo 4 (Words.zeros 8) fun i x =>
    (x.write i (w.read (4*a + i))).write (4 + i) (w.read (4*b + i))
  let x := aesRound2 form x
  let k0 := echo512Key cnt (BitVec.ofNat 32 (16*r + a))
  let k1 := echo512Key cnt (BitVec.ofNat 32 (16*r + b))
  let x := upTo 4 x fun i x =>
    let x := x.write i (x.read i ^^^ k0.read i)
    x.write (4 + i) (x.read (4 + i) ^^^ k1.read i)
  let x := aesRound2 form x
  upTo 4 w fun i w => (w.write (4*a + i) (x.read i)).write (4*b + i) (x.read (4 + i))

def bigShiftRows (w : Words 64) : Words 64 :=
  upTo 4 w fun c u => upTo 3 u fun row u => upTo 4 u fun i u =>
    u.write (4*(4*c + (row + 1)) + i) (w.read (4*(4*((c + (row + 1)) &&& 3) + (row + 1)) + i))

def bigMixColumn (w : Words 64) (c i : Nat) : Words 64 :=
  let a := w.read (16*c + i)
  let b := w.read (16*c + 4 + i)
  let d2 := w.read (16*c + 8 + i)
  let d3 := w.read (16*c + 12 + i)
  let ab := a ^^^ b
  let bc := b ^^^ d2
  let cd := d2 ^^^ d3
  let da := d3 ^^^ a
  let w := w.write (16*c + i) (aesXtime4 ab ^^^ b ^^^ cd)
  let w := w.write (16*c + 4 + i) (aesXtime4 bc ^^^ d2 ^^^ da)
  let w := w.write (16*c + 8 + i) (aesXtime4 cd ^^^ d3 ^^^ ab)
  w.write (16*c + 12 + i) (aesXtime4 da ^^^ a ^^^ bc)

def echo512ShiftMix (w : Words 64) : Words 64 :=
  upTo 4 (bigShiftRows w) fun c w => upTo 4 w fun i w => bigMixColumn w c i

def echo512Round (form : Form) (w : Words 64) (cnt : Words 4) (r : Nat) : Words 64 :=
  echo512ShiftMix (upTo 8 w fun j w => echo512SubwordsPair form w cnt r (2*j) (2*j + 1))

def echo512Compress (form : Form) (v m : Words 32) (cnt : Words 4) : Words 32 :=
  let w := upTo 32 (Words.zeros 64) fun i w =>
    (w.write i (v.read i)).write (32 + i) (m.read i)
  let w := upTo 10 w fun r w => echo512Round form w cnt r
  upTo 32 v fun i v => v.write i (v.read i ^^^ (m.read i ^^^ w.read i ^^^ w.read (32 + i)))

/-! ### Of 64 bytes -/

def echoBlock (s : Words 16) : Words 32 :=
  let m := upTo 16 (Words.zeros 32) fun k m => m.write k (s.read k)
  let m := upTo 15 (m.write 16 0x80) fun k m => m.write (17 + k) 0
  (m.write 27 0x02000000).write 28 512

def x11EchoBlock (s : Words 16) : Words 32 := echoBlock s

def qubitEchoBlock (s : Words 16) : Words 32 := echoBlock s

/-- `uint[4](512u, 0u, 0u, 0u)` -/
def bits : Words 4 := Words.ofList [512,0,0,0]

def echo (block : Words 16 → Words 32) (form : Form) (s : Words 16) : Words 16 :=
  let v := upTo 32 (Words.zeros 32) fun k v => v.write k (if k &&& 3 = 0 then 512 else 0)
  let v := echo512Compress form v (block s) bits
  upTo 16 s fun k s => s.write k (v.read k)

def x11Echo : Form → Words 16 → Words 16 := echo x11EchoBlock

def qubitEcho : Form → Words 16 → Words 16 := echo qubitEchoBlock

def kX11Echo0 : Words 48 :=
  Words.ofList [
    0xe7e9f5f5,0xf5e7e9f5,0xb3b36b23,0xb3dbe7af,0x14b8a457,0xf5e7e9f5,0xb3b36b23,0xb3dbe7af,
    0xdbfde1dd,0xf5e7e9f5,0xb3b36b23,0xb3dbe7af,0x9ac2dea3,0xf5e7e9f5,0xb3b36b23,0xb3dbe7af,
    0x65978b09,0xf5e7e9f5,0xb3b36b23,0xb3dbe7af,0xa4213d7e,0xf5e7e9f5,0xb3b36b23,0xb3dbe7af,
    0x265f4382,0xf5e7e9f5,0xb3b36b23,0xb3dbe7af,0x34514d9e,0xf5e7e9f5,0xb3b36b23,0xb3dbe7af,
    0xb134347e,0xea6f7e7e,0xbd7731bd,0x8a8a1968,0x579f9f33,0xfbfbfbfb,0xfbfbfbfb,0xefefd3c7,
    0x2cb6b661,0x6b23b3b3,0xcf93a7cf,0x9d9d3751,0x01425eb8,0xf5e7e9f5,0xb3b36b23,0xb3dbe7af]

def kQubitEcho0 : Words 48 :=
  Words.ofList [
    0xe7e9f5f5,0xf5e7e9f5,0xb3b36b23,0xb3dbe7af,0x14b8a457,0xf5e7e9f5,0xb3b36b23,0xb3dbe7af,
    0xdbfde1dd,0xf5e7e9f5,0xb3b36b23,0xb3dbe7af,0x9ac2dea3,0xf5e7e9f5,0xb3b36b23,0xb3dbe7af,
    0x65978b09,0xf5e7e9f5,0xb3b36b23,0xb3dbe7af,0xa4213d7e,0xf5e7e9f5,0xb3b36b23,0xb3dbe7af,
    0x265f4382,0xf5e7e9f5,0xb3b36b23,0xb3dbe7af,0x34514d9e,0xf5e7e9f5,0xb3b36b23,0xb3dbe7af,
    0xb134347e,0xea6f7e7e,0xbd7731bd,0x8a8a1968,0x579f9f33,0xfbfbfbfb,0xfbfbfbfb,0xefefd3c7,
    0x2cb6b661,0x6b23b3b3,0xcf93a7cf,0x9d9d3751,0x01425eb8,0xf5e7e9f5,0xb3b36b23,0xb3dbe7af]

/-- The state after the first `BigSubWords`, of which only the words of the message are worked out. -/
def screenStart (form : Form) (first : Words 48) (m : Words 32) : Words 64 :=
  let w := upTo 32 (Words.zeros 64) fun k w => w.write k (first.read k)
  let w := upTo 16 w fun k w => (w.write (32 + k) (m.read k)).write (48 + k) (first.read (32 + k))
  let w := echo512SubwordsPair form w bits 0 8 9
  echo512SubwordsPair form w bits 0 10 11

/-- `BigSubWords` of the last round, on the words that the screen needs. -/
def screenEnd (form : Form) (w : Words 64) : Words 64 :=
  let w := echo512SubwordsPair form w bits 9 0 2
  let w := echo512SubwordsPair form w bits 9 5 7
  let w := echo512SubwordsPair form w bits 9 8 10
  echo512SubwordsPair form w bits 9 13 15

def screenWord (m : Words 32) (w : Words 64) (i : Nat) : Word :=
  let c0 := aesXtime4 (w.read (20 + i) ^^^ w.read (40 + i)) ^^^ w.read (40 + i) ^^^
    w.read (60 + i) ^^^ w.read i
  let c2 := aesXtime4 (w.read (52 + i) ^^^ w.read (8 + i)) ^^^ w.read (8 + i) ^^^
    w.read (28 + i) ^^^ w.read (32 + i)
  m.read (4 + i) ^^^ c0 ^^^ c2

def echoScreen (block : Words 16 → Words 32) (first : Words 48) (form : Form) (s : Words 16) :
    Words 2 :=
  let m := block s
  let w := echo512ShiftMix (screenStart form first m)
  let w := upTo 8 w fun r w => echo512Round form w bits (r + 1)
  let w := screenEnd form w
  upTo 2 (Words.zeros 2) fun i d => d.write i (screenWord m w (i + 2))

def x11EchoScreen : Form → Words 16 → Words 2 := echoScreen x11EchoBlock kX11Echo0

def qubitEchoScreen : Form → Words 16 → Words 2 := echoScreen qubitEchoBlock kQubitEcho0

def lastStage (screen : Form → Words 16 → Words 2) (whole : Form → Words 16 → Words 16)
    (form : Form) (target : Words 2) (nonce : Word) (s : Words 16) : Option Progpow.Candidate :=
  let top := screen form s
  if target.read 1 < top.read 1 then none
  else if top.read 1 = target.read 1 ∧ target.read 0 < top.read 0 then none
  else
    let s := whole form s
    some ⟨nonce,0,upTo 8 (Words.zeros 8) fun k hash => hash.write k (s.read k)⟩

def x11Tail : Form → Words 2 → Word → Words 16 → Option Progpow.Candidate :=
  lastStage x11EchoScreen x11Echo

def qubitSearch : Form → Words 2 → Word → Words 16 → Option Progpow.Candidate :=
  lastStage qubitEchoScreen qubitEcho

end VkMiner.Echo.Glsl
