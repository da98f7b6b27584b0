import VkMiner.Blake2s.Host
import VkMiner.Sha512.Host
set_option autoImplicit false

/-! BLAKE-512 of any message, as the host has it, and what a dispatch of x11, which begins with it,
is prepared with. -/

namespace VkMiner.Blake512
open Loops
open Sha512 (Word64 rotr64 be64Bytes)
open Sha256d (Word Byte Dispatch encode leWordAt)

def blake512Iv : Cells Word64 8 := Sha512.sha512Iv

def blake512C : Cells Word64 16 :=
  #v[0x243f6a8885a308d3,0x13198a2e03707344,0xa4093822299f31d0,0x082efa98ec4e6c89,
    0x452821e638d01377,0xbe5466cf34e90c6c,0xc0ac29b7c97c50dd,0x3f84d5b5b5470917,
    0x9216d5d98979fb1b,0xd1310ba698dfb5ac,0x2ffd72dbd01adfb7,0xb8e1afed6a267e96,
    0xba7c9045f12c7f99,0x24a19947b3916cf7,0x0801f2e2858efc16,0x636920d871574e69]

def blake512Sigma : Nat → Nat → Nat := Blake2s.kSigma

def be64decLocal (b : List Byte) (first : Nat) : Word64 :=
  upTo 8 0 fun i v => (v <<< 8) ||| (b.getD (first + i) 0).setWidth 64

/-- The word that entry `i` of the permutation `s` picks, under the constant that `j` does. -/
def picked (m : Cells Word64 16) (s : Nat → Nat) (i j : Nat) : Word64 :=
  m.read (s i) ^^^ blake512C.read (s j)

def blake512G (m : Cells Word64 16) (s : Nat → Nat) (i a b c d : Nat) (v : Cells Word64 16) :
    Cells Word64 16 :=
  let v := v.write a (v.read a + (v.read b + picked m s (2*i) (2*i + 1)))
  let v := v.write d (rotr64 (v.read d ^^^ v.read a) 32)
  let v := v.write c (v.read c + v.read d)
  let v := v.write b (rotr64 (v.read b ^^^ v.read c) 25)
  let v := v.write a (v.read a + (v.read b + picked m s (2*i + 1) (2*i)))
  let v := v.write d (rotr64 (v.read d ^^^ v.read a) 16)
  let v := v.write c (v.read c + v.read d)
  v.write b (rotr64 (v.read b ^^^ v.read c) 11)

def round (m : Cells Word64 16) (s : Nat → Nat) (v : Cells Word64 16) : Cells Word64 16 :=
  let v := blake512G m s 0 0 4 8 12 v
  let v := blake512G m s 1 1 5 9 13 v
  let v := blake512G m s 2 2 6 10 14 v
  let v := blake512G m s 3 3 7 11 15 v
  let v := blake512G m s 4 0 5 10 15 v
  let v := blake512G m s 5 1 6 11 12 v
  let v := blake512G m s 6 2 7 8 13 v
  blake512G m s 7 3 4 9 14 v

def start (h : Cells Word64 8) (t : Word64) : Cells Word64 16 :=
  let v := upTo 8 (Cells.blank 16) fun i v => v.write i (h.read i)
  let v := upTo 4 v fun i v => v.write (8 + i) (blake512C.read i)
  let v := v.write 12 (t ^^^ blake512C.read 4)
  let v := v.write 13 (t ^^^ blake512C.read 5)
  let v := v.write 14 (blake512C.read 6)
  v.write 15 (blake512C.read 7)

def compressWords (h : Cells Word64 8) (m : Cells Word64 16) (t : Word64) : Cells Word64 8 :=
  let v := upTo 16 (start h t) fun r v => round m (blake512Sigma (r % 10)) v
  upTo 8 h fun i h => h.write i (h.read i ^^^ (v.read i ^^^ v.read (8 + i)))

def blake512Compress (h : Cells Word64 8) (block : List Byte) (t : Word64) : Cells Word64 8 :=
  compressWords h (upTo 16 (Cells.blank 16) fun i m => m.write i (be64decLocal block (8*i))) t

/-- The loop over whole blocks: the state, the bits behind it, and the bytes that are left. -/
def wholeBlocks (h : Cells Word64 8) (bits : Word64) (p : List Byte) :
    Cells Word64 8 × Word64 × List Byte :=
  if 128 ≤ p.length then
    wholeBlocks (blake512Compress h (p.take 128) (bits + 1024)) (bits + 1024) (p.drop 128)
  else (h,bits,p)
termination_by p.length

def blake512Full (data : List Byte) : List Byte :=
  let (h,bits,rest) := wholeBlocks blake512Iv 0 data
  let bits := bits + 8 * BitVec.ofNat 64 rest.length
  let last := rest ++ 0x80 :: List.replicate (127 - rest.length) 0
  let h := if 112 ≤ rest.length then blake512Compress h last bits else h
  let last := if 112 ≤ rest.length then List.replicate 128 0 else last
  let last := last.set 111 (last.getD 111 0 ||| 0x01)
  let last := last.take 120 ++ be64Bytes bits
  let h := blake512Compress h last (if rest.length = 0 ∨ 112 ≤ rest.length then 0 else bits)
  (List.range 8).flatMap fun i => be64Bytes (h.read i)

/-! ### The header -/

structure X11Push where
  header : Words 19
  target : Words 2
  nonceStart : Word
  count : Word
  capacity : Word

def pushBytes : Nat := 96

def prepare (dispatch : Dispatch) (capacity : Nat) : Option X11Push :=
  match dispatch.header,dispatch.target with
  | some header,some target =>
    if capacity < pushBytes then none
    else
      let words := upTo 19 (Words.zeros 19) fun i words =>
        words.write i (leWordAt (encode [header.read i]) 0)
      let top := ((Words.zeros 2).write 0 (target.read 6)).write 1 (target.read 7)
      some ⟨words,top,dispatch.nonceStart.setWidth 32,dispatch.count,dispatch.capacity⟩
  | _,_ => none

def firstStage (header : Words 20) (nonce : BitVec 64) : List Byte :=
  blake512Full (encode (header.toList.take 19 ++ [nonce.setWidth 32]))

end VkMiner.Blake512
