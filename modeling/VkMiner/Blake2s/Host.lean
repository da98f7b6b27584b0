import VkMiner.Sha256d.Host
set_option autoImplicit false

/-! BLAKE2s of a header, as the host has it, and what a dispatch of blake2s is prepared with. -/

namespace VkMiner.Blake2s
open Loops
open Sha256d (Word Byte Dispatch encode leWordAt)

def kIV : Words 8 :=
  Words.ofList
    [0x6a09e667,0xbb67ae85,0x3c6ef372,0xa54ff53a,0x510e527f,0x9b05688c,0x1f83d9ab,0x5be0cd19]

/-- `kSigma[r][i]`. -/
def kSigma (r i : Nat) : Nat :=
  (([[0,1,2,3,4,5,6,7,8,9,10,11,12,13,14,15],
    [14,10,4,8,9,15,13,6,1,12,0,2,11,7,5,3],
    [11,8,12,0,5,2,15,13,10,14,3,6,7,1,9,4],
    [7,9,3,1,13,12,11,14,2,6,5,10,4,0,15,8],
    [9,0,5,7,2,4,10,15,14,1,11,12,6,8,3,13],
    [2,12,6,10,0,11,8,3,4,13,7,5,15,14,1,9],
    [12,5,1,15,14,13,4,10,0,7,6,3,9,2,8,11],
    [13,11,7,14,12,1,3,9,5,0,15,4,8,6,2,10],
    [6,15,14,9,11,3,0,8,12,2,13,7,1,4,10,5],
    [10,2,8,4,7,6,1,5,15,11,9,14,3,12,13,0]] : List (List Nat)).getD r []).getD i 0

def rotr32 (x : Word) (n : Nat) : Word := (x >>> n) ||| (x <<< (32 - n))

def mix (v : Words 16) (a b c d : Nat) (x y : Word) : Words 16 :=
  let v := v.write a (v.read a + v.read b + x)
  let v := v.write d (rotr32 (v.read d ^^^ v.read a) 16)
  let v := v.write c (v.read c + v.read d)
  let v := v.write b (rotr32 (v.read b ^^^ v.read c) 12)
  let v := v.write a (v.read a + v.read b + y)
  let v := v.write d (rotr32 (v.read d ^^^ v.read a) 8)
  let v := v.write c (v.read c + v.read d)
  v.write b (rotr32 (v.read b ^^^ v.read c) 7)

def round (m : Words 16) (r : Nat) (v : Words 16) : Words 16 :=
  let s (i : Nat) : Word := m.read (kSigma r i)
  let v := mix v 0 4 8 12 (s 0) (s 1)
  let v := mix v 1 5 9 13 (s 2) (s 3)
  let v := mix v 2 6 10 14 (s 4) (s 5)
  let v := mix v 3 7 11 15 (s 6) (s 7)
  let v := mix v 0 5 10 15 (s 8) (s 9)
  let v := mix v 1 6 11 12 (s 10) (s 11)
  let v := mix v 2 7 8 13 (s 12) (s 13)
  mix v 3 4 9 14 (s 14) (s 15)

def start (h : Words 8) (counter : Word) (last : Bool) : Words 16 :=
  let v := upTo 8 (Words.zeros 16) fun i v => (v.write i (h.read i)).write (i + 8) (kIV.read i)
  let v := v.write 12 (v.read 12 ^^^ counter)
  if last then v.write 14 (~~~v.read 14) else v

def compress (h : Words 8) (m : Words 16) (counter : Word) (last : Bool) : Words 8 :=
  let v := upTo 10 (start h counter last) (round m)
  upTo 8 h fun i h => h.write i (h.read i ^^^ (v.read i ^^^ v.read (i + 8)))

def midstate (header : List Byte) : Words 8 :=
  let m := upTo 16 (Words.zeros 16) fun i m => m.write i (leWordAt header i)
  compress (kIV.write 0 (kIV.read 0 ^^^ 0x01010020)) m 64 false

def blake2s80 (header : List Byte) : Words 8 :=
  let h := midstate header
  let m := upTo 4 (Words.zeros 16) fun i m => m.write i (leWordAt (header.drop 64) i)
  compress h m 80 true

def hash (header : Words 20) (nonce : BitVec 64) : Words 8 :=
  blake2s80 (encode (header.toList.take 19 ++ [nonce.setWidth 32]))

structure Blake2sPush where
  midstate : Words 8
  block : Words 3
  target : Words 8
  nonceStart : Word
  count : Word
  capacity : Word

def pushBytes : Nat := 88

def prepare (dispatch : Dispatch) (capacity : Nat) : Option Blake2sPush :=
  match dispatch.header,dispatch.target with
  | some header,some target =>
    if capacity < pushBytes then none
    else
      let wire := encode (header.toList.take 19)
      let block := upTo 3 (Words.zeros 3) fun i block => block.write i (leWordAt (wire.drop 64) i)
      some ⟨midstate wire,block,target,dispatch.nonceStart.setWidth 32,dispatch.count,
        dispatch.capacity⟩
  | _,_ => none

end VkMiner.Blake2s
