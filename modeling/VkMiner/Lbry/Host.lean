import VkMiner.Host.Screen
import VkMiner.Ripemd160.Host
import VkMiner.Sha512.Host
set_option autoImplicit false

/-! What the host works out for a dispatch of lbry, and the chain of hashes that it checks a nonce
with. -/

namespace VkMiner.Lbry
open Loops Sha256
open Sha256d (Word Byte K ror encode leWordAt sha256d sha256Midstate fulltest)

def nonceWords (tail : Words 11) : Words 26 :=
  let w := upTo 11 (Words.zeros 26) fun i w => w.write i (tail.read i)
  let w := (w.write 11 0).write 12 0x80000000
  ((w.write 13 0).write 14 0).write 15 0x380

/-- One pass of the loop that expands it, without the terms that the nonce reaches. -/
def expandShort (w : Words 26) (i : Nat) : Words 26 :=
  let s0 := ror (w.read (i - 15)) 7 ^^^ ror (w.read (i - 15)) 18 ^^^ (w.read (i - 15) >>> 3)
  let s1 := ror (w.read (i - 2)) 17 ^^^ ror (w.read (i - 2)) 19 ^^^ (w.read (i - 2) >>> 10)
  let s1 := if i = 20 ∨ i = 22 ∨ i = 24 then 0 else s1
  w.write i (w.read (i - 16) + s0 + s1 + if i = 18 ∨ i = 25 then 0 else w.read (i - 7))

/-- The variables that enter round 12 and the message words from 16 to 25. -/
def sha256AdvanceNonceBlock112 (state : Words 8) (tail : Words 11) : Words 8 × Words 10 :=
  let w := upTo 10 (nonceWords tail) fun i w => expandShort w (16 + i)
  let v := upTo 12 (Vars.load state) fun i v => Sha256d.round (K.read i) (w.read i) v
  (#v[v.a,v.b,v.c,v.d,v.e,v.f,v.g,v.h],
    upTo 10 (Words.zeros 10) fun i sched => sched.write i (w.read (16 + i)))

structure Dispatch where
  header : Option (Words 28)
  target : Option (Words 8)
  nonceStart : BitVec 64
  count : Word
  capacity : Word

structure LbryPush where
  midstate : Words 8
  midbuffer : Words 8
  sched : Words 10
  tail10 : Word
  target : Words 2
  nonceStart : Word
  count : Word
  capacity : Word

def pushBytes : Nat := 128

def prepare (dispatch : Dispatch) (capacity : Nat) : Option LbryPush :=
  match dispatch.header,dispatch.target with
  | some header,some target =>
    if capacity < pushBytes then none
    else
      let tail := upTo 11 (Words.zeros 11) fun i tail => tail.write i (header.read (16 + i))
      let midstate := sha256Midstate header.toList
      let (midbuffer,sched) := sha256AdvanceNonceBlock112 midstate tail
      some ⟨midstate,midbuffer,sched,header.read 26,Words.ofList [target.read 6,target.read 7],
        dispatch.nonceStart.setWidth 32,dispatch.count,dispatch.capacity⟩
  | _,_ => none

def lbryHash112 (header : List Byte) : List Byte :=
  let h1 := sha256d header
  let h2 := Sha512.sha512Full h1
  let r := Ripemd160.ripemd160Full (h2.take 32) ++ Ripemd160.ripemd160Full (h2.drop 32)
  sha256d r

def hash (header : Words 28) (nonce : BitVec 64) : Words 8 :=
  let digest := lbryHash112 (encode (header.toList.take 27 ++ [nonce.setWidth 32]))
  upTo 8 (Words.zeros 8) fun i out => out.write i (leWordAt digest i)

end VkMiner.Lbry
