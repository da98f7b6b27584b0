import VkMiner.Sha256d.Host
set_option autoImplicit false

/-! Luffa-512 as the host has it, and what it works out of a header before the nonce is known. -/

namespace VkMiner.Luffa
open Loops Sha256d

/-- Five lanes of eight words. -/
abbrev Lanes := Vector (Words 8) 5

def lane (v : Lanes) (j : Nat) : Words 8 := v[j]?.getD (Words.zeros 8)

def luffa512Iv : Lanes :=
  #v[#v[0x6d251e69,0x44b051e0,0x4eaa6fb4,0xdbf78465,0x6e292011,0x90152df4,0xee058139,0xdef610bb],
    #v[0xc3b44b95,0xd9d2f256,0x70eee9a0,0xde099fa3,0x5d9b0557,0x8fc944b3,0xcf1ccf0e,0x746cd581],
    #v[0xf7efc89d,0x5dba5781,0x04016ce5,0xad659c05,0x0306194f,0x666d1836,0x24aa230a,0x8b264ae7],
    #v[0x858075d5,0x36d79cce,0xe571f7d7,0x204b1f67,0x35870c6a,0x57e9e923,0x14bcb808,0x7cde72ce],
    #v[0x6c68e9be,0x5ec41e22,0xc825b7c7,0xaffb4363,0xf5df3999,0x0fc688f1,0xb07224cc,0x03e86cea]]

/-- The step constants of a lane, for word 0 and for word 4. -/
def luffa512Rc : Vector (Words 8 × Words 8) 5 :=
  #v[(#v[0x303994a6,0xc0e65299,0x6cc33a12,0xdc56983e,0x1e00108f,0x7800423d,0x8f5b7882,0x96e1db12],
      #v[0xe0337818,0x441ba90d,0x7f34d442,0x9389217f,0xe5a8bce6,0x5274baf4,0x26889ba7,0x9a226e9d]),
    (#v[0xb6de10ed,0x70f47aae,0x0707a3d4,0x1c1e8f51,0x707a3d45,0xaeb28562,0xbaca1589,0x40a46f3e],
      #v[0x01685f3d,0x05a17cf4,0xbd09caca,0xf4272b28,0x144ae5cc,0xfaa7ae2b,0x2e48f1c1,0xb923c704]),
    (#v[0xfc20d9d2,0x34552e25,0x7ad8818f,0x8438764a,0xbb6de032,0xedb780c8,0xd9847356,0xa2c78434],
      #v[0xe25e72c1,0xe623bb72,0x5c58a4a4,0x1e38e2e7,0x78e38b9d,0x27586719,0x36eda57f,0x703aace7]),
    (#v[0xb213afa5,0xc84ebe95,0x4e608a22,0x56d858fe,0x343b138f,0xd0ec4e3d,0x2ceb4882,0xb3ad2208],
      #v[0xe028c9bf,0x44756f91,0x7e8fce32,0x956548be,0xfe191be2,0x3cb226e5,0x5944a28e,0xa1c4c355]),
    (#v[0xf0d2e9e3,0xac11d7fa,0x1bcb66f2,0x6f2d9bc9,0x78602649,0x8edae952,0x3b6ba548,0xedae9520],
      #v[0x5090d577,0x2d1925ab,0xb46496ac,0xd1925ab0,0x29131ab6,0x0fc053c3,0x3f014f0c,0xfc053c31])]

def rotl (x : Word) (n : Nat) : Word := (x <<< n) ||| (x >>> (32 - n))

/-- Multiplication by x, in place: no word is read after it is written, so that the target may be
another array. -/
def mul2 (s : Words 8) : Words 8 :=
  let t := s.read 7
  let s := s.write 7 (s.read 6)
  let s := s.write 6 (s.read 5)
  let s := s.write 5 (s.read 4)
  let s := s.write 4 (s.read 3 ^^^ t)
  let s := s.write 3 (s.read 2 ^^^ t)
  let s := s.write 2 (s.read 1)
  let s := s.write 1 (s.read 0 ^^^ t)
  s.write 0 t

def xor8 (a b : Words 8) : Words 8 :=
  upTo 8 a fun i d => d.write i (d.read i ^^^ b.read i)

def mul2At (v : Lanes) (i : Nat) : Lanes := v.setIfInBounds i (mul2 (lane v i))

def xor8At (v : Lanes) (i : Nat) (b : Words 8) : Lanes := v.setIfInBounds i (xor8 (lane v i) b)

/-- `mul2( v[i], v[i] ); xor8( v[i], v[i], v[j] );`. -/
def foldLane (v : Lanes) (i j : Nat) : Lanes :=
  let v := mul2At v i
  xor8At v i (lane v j)

def mixLanes (v : Lanes) : Lanes :=
  let a := xor8 (lane v 0) (lane v 1)
  let a := xor8 a (lane v 2)
  let a := xor8 a (lane v 3)
  let a := xor8 a (lane v 4)
  let a := mul2 a
  let v := upTo 5 v fun j v => xor8At v j a
  let b := mul2 (lane v 0)
  let b := xor8 b (lane v 1)
  let v := foldLane v 1 2
  let v := foldLane v 2 3
  let v := foldLane v 3 4
  let v := foldLane v 4 0
  let v := v.setIfInBounds 0 (mul2 b)
  let v := xor8At v 0 (lane v 4)
  let v := foldLane v 4 3
  let v := foldLane v 3 2
  let v := foldLane v 2 1
  let v := mul2At v 1
  xor8At v 1 b

def injectLane (j : Nat) (s : Lanes × Words 8) : Lanes × Words 8 :=
  (xor8At s.1 j s.2,if j < 4 then mul2 s.2 else s.2)

def luffa512Mi (v : Lanes) (m : Words 8) : Lanes := (upTo 5 (mixLanes v,m) injectLane).1

def subCrumb (a0 a1 a2 a3 : Word) : Word × Word × Word × Word :=
  let t := a0
  let a0 := a0 ||| a1
  let a2 := a2 ^^^ a3
  let a1 := ~~~a1
  let a0 := a0 ^^^ a3
  let a3 := a3 &&& t
  let a1 := a1 ^^^ a3
  let a3 := a3 ^^^ a2
  let a2 := a2 &&& a0
  let a0 := ~~~a0
  let a2 := a2 ^^^ a1
  let a1 := a1 ||| a3
  let t := t ^^^ a1
  let a3 := a3 ^^^ a2
  let a2 := a2 &&& a1
  let a1 := a1 ^^^ a0
  (t,a1,a2,a3)

def mixWord (u v : Word) : Word × Word :=
  let v := v ^^^ u
  let u := rotl u 2 ^^^ v
  let v := rotl v 14 ^^^ u
  let u := rotl u 10 ^^^ v
  (u,rotl v 1)

def tweak (x : Words 8) (j : Nat) : Words 8 :=
  if 0 < j then upTo 4 x fun k x => x.write (4 + k) (rotl (x.read (4 + k)) j) else x

def laneStep (c0 c4 : Word) (x : Words 8) : Words 8 :=
  let (a0,a1,a2,a3) := subCrumb (x.read 0) (x.read 1) (x.read 2) (x.read 3)
  let x := (((x.write 0 a0).write 1 a1).write 2 a2).write 3 a3
  let (a5,a6,a7,a4) := subCrumb (x.read 5) (x.read 6) (x.read 7) (x.read 4)
  let x := (((x.write 5 a5).write 6 a6).write 7 a7).write 4 a4
  let x := upTo 4 x fun k x =>
    let (u,v) := mixWord (x.read k) (x.read (k + 4))
    (x.write k u).write (k + 4) v
  let x := x.write 0 (x.read 0 ^^^ c0)
  x.write 4 (x.read 4 ^^^ c4)

def luffa512Permute (x : Words 8) (j : Nat) : Words 8 :=
  let rc := luffa512Rc[j]?.getD (Words.zeros 8,Words.zeros 8)
  upTo 8 (tweak x j) fun r x => laneStep (rc.1.read r) (rc.2.read r) x

def luffa512Block (v : Lanes) (block : List Byte) : Lanes :=
  let m := upTo 8 (Words.zeros 8) fun j m => m.write j (wordAt block j)
  upTo 5 (luffa512Mi v m) fun j v => v.setIfInBounds j (luffa512Permute (lane v j) j)

def zeroedWords (data : List Byte) : Words 8 :=
  let m := upTo 3 (Words.zeros 8) fun j m => m.write j (wordAt (data.drop 64) j)
  let m := (m.write 3 0).write 4 0x80000000
  ((m.write 5 0).write 6 0).write 7 0

/-- What the kernel is given: the state of two blocks and the injection of the third. -/
def luffa51280Precompute (data : List Byte) : Words 40 :=
  let v := luffa512Block luffa512Iv data
  let v := luffa512Block v (data.drop 32)
  let v := luffa512Mi v (zeroedWords data)
  upTo 5 (Words.zeros 40) fun j out => upTo 8 out fun k out =>
    let word := (lane v j).read k
    out.write (8*j + k) (if 0 < j ∧ 4 ≤ k then rotl word j else word)

def wholeBlocks (v : Lanes) (p : List Byte) : Lanes × List Byte :=
  if 32 ≤ p.length then wholeBlocks (luffa512Block v p) (p.drop 32) else (v,p)
termination_by p.length

def laneSum (v : Lanes) (k : Nat) : Word :=
  (lane v 0).read k ^^^ (lane v 1).read k ^^^ (lane v 2).read k ^^^ (lane v 3).read k ^^^
    (lane v 4).read k

def blankBlocks (v : Lanes) : List Byte :=
  (upTo 2 (v,[]) fun _ (v,out) =>
    let v := luffa512Block v (List.replicate 32 0)
    (v,out ++ encode ((List.range 8).map (laneSum v)))).2

def luffa512Full (data : List Byte) : List Byte :=
  let (v,rest) := wholeBlocks luffa512Iv data
  blankBlocks (luffa512Block v (rest ++ 0x80 :: List.replicate (31 - rest.length) 0))

structure QubitUniform where
  v : Vector (Words 4) 10

/-- Forty words as an array of `uvec4`, with nothing between them. -/
def vectors (v : Words 40) : Vector (Words 4) 10 :=
  Vector.ofFn fun k => #v[v.read (4*k),v.read (4*k + 1),v.read (4*k + 2),v.read (4*k + 3)]

def uniformBytes : Nat := 160

def prepareUniform (dispatch : Dispatch) (capacity : Nat) : Option QubitUniform :=
  match dispatch.header with
  | some header =>
    if capacity < uniformBytes then none
    else
      let data := encode (header.toList.take 19) ++ List.replicate 4 0
      some ⟨vectors (luffa51280Precompute data)⟩
  | none => none

end VkMiner.Luffa
