import VkMiner.Aes.Host
import VkMiner.Lib.Quads
import VkMiner.Sha256d.Digest
set_option autoImplicit false

/-! ECHO-512 as the host has it. A matrix of words of 128 bits is one array, four places to a word. -/

namespace VkMiner.Echo
open Loops Quads
open Sha256d (Word Byte leWordAt leBytes)
open Aes (xtime aesRoundLe)

def byteOf (w : Words 4) (i : Nat) : Byte := (w.read (i >>> 2) >>> (8*(i &&& 3))).setWidth 8

/-- `if ( ++k[0] == 0 && ++k[1] == 0 && ++k[2] == 0 ) ++k[3];` -/
def counted (k : Words 4) : Words 4 :=
  let k := k.write 0 (k.read 0 + 1)
  if k.read 0 ≠ 0 then k
  else
    let k := k.write 1 (k.read 1 + 1)
    if k.read 1 ≠ 0 then k
    else
      let k := k.write 2 (k.read 2 + 1)
      if k.read 2 ≠ 0 then k else k.write 3 (k.read 3 + 1)

/-- The matrix, and the counter that is the next key. -/
structure State where
  w : Words 64
  k : Words 4

def bigSubWord (s : State) (n : Nat) : State :=
  ⟨putWord s.w n (aesRoundLe (aesRoundLe (word s.w n) (some s.k)) none),counted s.k⟩

def bigSubWords (s : State) : State := upTo 16 s fun n s => bigSubWord s n

def bigShiftRows (w : Words 64) : Words 64 :=
  upTo 4 (Words.zeros 64) fun c t => upTo 4 t fun row t =>
    putWord t (4*c + row) (word w (4*((c + row) &&& 3) + row))

def mixBytes (t : Words 64) (c i : Nat) (out : Words 16) : Words 16 :=
  let a := fun row => byteOf (word t (4*c + row)) i
  let all := a 0 ^^^ a 1 ^^^ a 2 ^^^ a 3
  upTo 4 out fun row out =>
    let b := a row ^^^ all ^^^ xtime (a row ^^^ a ((row + 1) &&& 3))
    let place := 4*row + (i >>> 2)
    out.write place (out.read place ||| (b.setWidth 32 <<< (8*(i &&& 3))))

def bigMixColumns (w t : Words 64) : Words 64 :=
  upTo 4 w fun c w =>
    let out := upTo 16 (Words.zeros 16) fun i out => mixBytes t c i out
    upTo 16 w fun i w => w.write (16*c + i) (out.read i)

def round (s : State) : State :=
  let s := bigSubWords s
  ⟨bigMixColumns s.w (bigShiftRows s.w),s.k⟩

def echo512Compress (v : Words 32) (msg : List Byte) (cnt : Words 4) : Words 32 :=
  let w := upTo 32 (Words.zeros 64) fun i w => w.write i (v.read i)
  let w := upTo 32 w fun i w => w.write (32 + i) (leWordAt msg i)
  let w := (upTo 10 ⟨w,cnt⟩ fun _ s => round s).w
  upTo 32 v fun i v => v.write i (v.read i ^^^ (leWordAt msg i ^^^ w.read i ^^^ w.read (32 + i)))

def counter (done : BitVec 64) : Words 4 := #v[done.setWidth 32,(done >>> 32).setWidth 32,0,0]

/-- The chaining value, the bits that are in it, and the bytes behind them. -/
structure Absorbed where
  v : Words 32
  done : BitVec 64
  rest : List Byte

def wholeBlocks (a : Absorbed) : Absorbed :=
  if 128 ≤ a.rest.length then
    let done := a.done + 1024
    wholeBlocks ⟨echo512Compress a.v (a.rest.take 128) (counter done),done,a.rest.drop 128⟩
  else a
termination_by a.rest.length

def echo512Iv : Words 32 := upTo 8 (Words.zeros 32) fun n v => v.write (4*n) 512

/-- The padding: the chaining value, the last block but for its lengths, and its counter. -/
def padded (a : Absorbed) (done : BitVec 64) : Words 32 × List Byte × Words 4 :=
  let last := a.rest ++ 0x80 :: List.replicate (127 - a.rest.length) 0
  if a.rest.length = 0 then (a.v,last,counter 0)
  else if 110 < a.rest.length + 1 then
    (echo512Compress a.v last (counter done),List.replicate 128 0,counter 0)
  else (a.v,last,counter done)

def echo512Full (data : List Byte) : List Byte :=
  let a := wholeBlocks ⟨echo512Iv,0,data⟩
  let done := a.done + BitVec.ofNat 64 a.rest.length * 8
  let (v,last,cnt) := padded a done
  let last := last.take 110 ++ [(0x00 : Byte),0x02] ++ leBytes (done.setWidth 32) ++
    leBytes ((done >>> 32).setWidth 32) ++ last.drop 120
  let v := echo512Compress v last cnt
  (List.range 16).flatMap fun i => leBytes (v.read i)

end VkMiner.Echo
