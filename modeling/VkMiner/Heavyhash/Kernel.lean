import VkMiner.Heavyhash.Host
import VkMiner.Progpow.Kernel
set_option autoImplicit false

/-! The heavyhash kernel, over either kind of lane and with either way of taking the product. -/

namespace VkMiner.Heavyhash.Glsl
open Loops Cells
open Progpow (Candidate)
open Progpow.Glsl (bswap32)
open Sha256d (Word)

/-! ### Lanes -/

structure KLane (L : Type) extends Keccak.Lanes L where
  klane : Word → Word → L
  klo : L → Word
  khi : L → Word

def int64 : KLane Word64 where
  xor := (· ^^^ ·)
  and := (· &&& ·)
  not := (~~~ ·)
  rotl := fun x n => if n = 0 then x else (x <<< n) ||| (x >>> (64 - n))
  klane := fun lo hi => lo.setWidth 64 ||| (hi.setWidth 64 <<< 32)
  klo := fun x => x.setWidth 32
  khi := fun x => (x >>> 32).setWidth 32

def pairs : KLane Halves where
  xor := fun p q => ⟨p.x ^^^ q.x,p.y ^^^ q.y⟩
  and := fun p q => ⟨p.x &&& q.x,p.y &&& q.y⟩
  not := fun p => ⟨~~~p.x,~~~p.y⟩
  rotl := Halves.turn
  klane := fun lo hi => ⟨lo,hi⟩
  klo := fun p => p.x
  khi := fun p => p.y

def sha3RcLow : Words 24 :=
  #v[0x00000001,0x00008082,0x0000808a,0x80008000,0x0000808b,0x80000001,0x80008081,0x00008009,
    0x0000008a,0x00000088,0x80008009,0x8000000a,0x8000808b,0x0000008b,0x00008089,0x00008003,
    0x00008002,0x00000080,0x0000800a,0x8000000a,0x80008081,0x00008080,0x80000001,0x80008008]

def sha3RcHigh : Words 24 :=
  #v[0x00000000,0x00000000,0x80000000,0x80000000,0x00000000,0x00000000,0x80000000,0x80000000,
    0x00000000,0x00000000,0x00000000,0x00000000,0x00000000,0x80000000,0x80000000,0x80000000,
    0x80000000,0x80000000,0x00000000,0x80000000,0x80000000,0x80000000,0x00000000,0x80000000]

def sha3Rho (i : Nat) : Nat :=
  [0,1,62,28,27,36,44,6,55,20,3,10,43,25,39,41,45,15,21,8,18,2,61,56,14].getD i 0

section
variable {L : Type} [Inhabited L] (B : KLane L)

def hhRound (a : Cells L 25) (r : Nat) : Cells L 25 :=
  Keccak.round B.toLanes sha3Rho a (B.klane (sha3RcLow.read r) (sha3RcHigh.read r))

def hhKeccakfHead (a : Cells L 25) : Cells L 25 :=
  upTo 22 (hhRound B a 0) fun r a => hhRound B a (1 + r)

/-- The high word of lane 3 after the last round, from the state before it. -/
def hhTop (a : Cells L 25) : Word :=
  let c : Cells L 5 := upTo 5 (blank 5) fun x c => c.write x (Keccak.parity B.toLanes a x)
  let b0 := B.xor (B.xor (a.read 0) (c.read 4)) (B.rotl (c.read 1) 1)
  let b3 := B.rotl (B.xor (B.xor (a.read 18) (c.read 2)) (B.rotl (c.read 4) 1)) (sha3Rho 18)
  let b4 := B.rotl (B.xor (B.xor (a.read 24) (c.read 3)) (B.rotl (c.read 0) 1)) (sha3Rho 24)
  B.khi (B.xor b3 (B.and (B.not b4) b0))

def empty : Cells L 25 := upTo 25 (blank 25) fun i a => a.write i (B.klane 0 0)

def headerState (push : HeavyhashPush) (nonce : Word) : Cells L 25 :=
  let a := upTo 9 (empty B) fun i a =>
    a.write i (B.klane (push.block.read (2*i)) (push.block.read (2*i + 1)))
  let a := a.write 9 (B.klane (push.block.read 18) (bswap32 nonce))
  let a := a.write 10 (B.klane 0x06 0)
  a.write 16 (B.klane 0 0x80000000)

def lowWords (a : Cells L 25) : Words 8 :=
  upTo 4 (Words.zeros 8) fun i d =>
    (d.write (2*i) (B.klo (a.read i))).write (2*i + 1) (B.khi (a.read i))

def digestState (d p : Words 8) : Cells L 25 :=
  let a := upTo 4 (empty B) fun i a =>
    a.write i (B.klane (d.read (2*i) ^^^ p.read (2*i)) (d.read (2*i + 1) ^^^ p.read (2*i + 1)))
  let a := a.write 4 (B.klane 0x06 0)
  a.write 16 (B.klane 0 0x80000000)

end

/-! ### The product by columns -/

/-- `HH_COL`: the thirty-two accumulators take column `j` times a nibble. -/
def hhCol (job : HeavyhashUniform) (j : Nat) (nib : Word) (acc : Words 32) : Words 32 :=
  upTo 32 acc fun k acc => acc.write k (acc.read k + job.words.read (32*j + k) * nib)

def hhByte (job : HeavyhashUniform) (d : Words 8) (b : Nat) (acc : Words 32) : Words 32 :=
  let byt := (d.read (b / 4) >>> (8 * (b % 4))) &&& 0xff
  hhCol job (2*b + 1) (byt &&& 0xf) (hhCol job (2*b) (byt >>> 4) acc)

def hhPacked (acc : Word) : Word := (((acc >>> 10) &&& 0xf) <<< 4) ||| (acc >>> 26)

def bytesWord (f : Nat → Word) : Word := f 0 ||| (f 1 <<< 8) ||| (f 2 <<< 16) ||| (f 3 <<< 24)

def hhPack (acc : Words 32) (q : Nat) : Word := bytesWord fun b => hhPacked (acc.read (4*q + b))

def columnProduct (job : HeavyhashUniform) (d : Words 8) : Words 8 :=
  let acc := upTo 32 (Words.zeros 32) fun b acc => hhByte job d b acc
  upTo 8 (Words.zeros 8) fun q p => p.write q (hhPack acc q)

/-! ### The product by rows -/

/-- `dotPacked4x8EXT`. -/
def dotPacked4x8 (x y : Word) : Word :=
  let byte (w : Word) (t : Nat) := ((w >>> (8*t)) &&& 0xff)
  byte x 0 * byte y 0 + byte x 1 * byte y 1 + byte x 2 * byte y 2 + byte x 3 * byte y 3

def hhNibbles (h l : Word) : Word :=
  (h &&& 0xff) ||| ((l &&& 0xff) <<< 8) ||| ((h &&& 0xff00) <<< 8) ||| ((l &&& 0xff00) <<< 16)

def nibbleWords (d : Words 8) : Words 16 :=
  upTo 8 (Words.zeros 16) fun q nw =>
    let h := (d.read q >>> 4) &&& 0x0f0f0f0f
    let l := d.read q &&& 0x0f0f0f0f
    (nw.write (2*q) (hhNibbles h l)).write (2*q + 1) (hhNibbles (h >>> 16) (l >>> 16))

def hhDot4 (job : HeavyhashUniform) (nw : Words 16) (i k : Nat) : Word :=
  let dot (c : Nat) := dotPacked4x8 (job.rows.read (4*(4*i + k) + c)) (nw.read (4*k + c))
  dot 0 + dot 1 + dot 2 + dot 3

def hhRow (job : HeavyhashUniform) (nw : Words 16) (i : Nat) : Word :=
  (hhDot4 job nw i 0 + hhDot4 job nw i 1 + hhDot4 job nw i 2 + hhDot4 job nw i 3) >>> 10

def hhPbyte (job : HeavyhashUniform) (nw : Words 16) (b : Nat) : Word :=
  (hhRow job nw (2*b) <<< 4) ||| hhRow job nw (2*b + 1)

def hhPword (job : HeavyhashUniform) (nw : Words 16) (q : Nat) : Word :=
  bytesWord fun b => hhPbyte job nw (4*q + b)

def rowProduct (job : HeavyhashUniform) (d : Words 8) : Words 8 :=
  upTo 8 (Words.zeros 8) fun q p => p.write q (hhPword job (nibbleWords d) q)

/-! ### The search -/

section
variable {L : Type} [Inhabited L] (B : KLane L) (hhDot : Bool)

def product (job : HeavyhashUniform) (d : Words 8) : Words 8 :=
  if hhDot then rowProduct job d else columnProduct job d

def beforeLast (push : HeavyhashPush) (job : HeavyhashUniform) (nonce : Word) : Cells L 25 :=
  let a := hhRound B (hhKeccakfHead B (headerState B push nonce)) 23
  let d := lowWords B a
  hhKeccakfHead B (digestState B d (product hhDot job d))

def lastState (a : Cells L 25) : Words 8 := lowWords B (hhRound B a 23)

def within (state target : Words 8) : Nat → Bool
  | 0 => true
  | i + 1 =>
    if target.read i < state.read i then false
    else if state.read i < target.read i then true
    else within state target i

def search (push : HeavyhashPush) (job : HeavyhashUniform) (nonce : Word) : Option Candidate :=
  let a := beforeLast B hhDot push job nonce
  if push.target.read 7 < hhTop B a then none
  else
    let state := lastState B a
    if within state push.target 8 then some ⟨nonce,0,state⟩ else none

def main (push : HeavyhashPush) (job : HeavyhashUniform) (index : Word) : Option Candidate :=
  if push.count ≤ index then none else search B hhDot push job (push.nonceStart + index)

end

/-! ### The modules -/

/-- The three ways the kernel is built. -/
inductive Module where
  | wide
  | pair
  | dot
  deriving DecidableEq

def Module.digest : Module → HeavyhashPush → HeavyhashUniform → Word → Words 8
  | .wide,push,job,nonce => lastState int64 (beforeLast int64 false push job nonce)
  | .pair,push,job,nonce => lastState pairs (beforeLast pairs false push job nonce)
  | .dot,push,job,nonce => lastState pairs (beforeLast pairs true push job nonce)

def Module.main : Module → HeavyhashPush → HeavyhashUniform → Word → Option Candidate
  | .wide => Glsl.main int64 false
  | .pair => Glsl.main pairs false
  | .dot => Glsl.main pairs true

end VkMiner.Heavyhash.Glsl
