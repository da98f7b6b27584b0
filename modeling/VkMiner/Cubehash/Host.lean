import VkMiner.Sha256d.Digest
set_option autoImplicit false

/-! CubeHash-512 of any message, as the host has it. -/

namespace VkMiner.Cubehash
open Loops
open Sha256d (Word Byte leWordAt leBytes)

def cubehash512Iv : Words 32 :=
  Words.ofList
    [0x2aea2a61,0x50f494d4,0x2d538b8b,0x4167d83e,0x3fee2313,0xc701cf8c,0xcc39968e,0x50ac5695,
     0x4d42c787,0xa647a8b3,0x97cf0bef,0x825b4537,0xeef864d2,0xf22090c4,0xd0e5cd33,0xa23911ae,
     0xfcd398d9,0x148fe485,0x1b017bef,0xb6444532,0x6a536159,0x2ff5781c,0x91fa7934,0x0dbadea9,
     0xd65c8a2b,0xa5a70e75,0xb1c62456,0xbc796576,0x1921c8f7,0xe7989af1,0x7795d246,0xd43e3b44]

def rotl (x : Word) (n : Nat) : Word := (x <<< n) ||| (x >>> (32 - n))

def swap (x : Words 32) (i j : Nat) : Words 32 :=
  let t := x.read i
  (x.write i (x.read j)).write j t

/-! The steps of a round that host and device write alike. -/

def addStep (x : Words 32) : Words 32 :=
  upTo 16 x fun i x => x.write (16 + i) (x.read (16 + i) + x.read i)

def turnStep (n : Nat) (x : Words 32) : Words 32 :=
  upTo 16 x fun i x => x.write i (rotl (x.read i) n)

def xorStep (x : Words 32) : Words 32 :=
  upTo 16 x fun i x => x.write i (x.read i ^^^ x.read (16 + i))

def swapStep (x : Words 32) : Words 32 := upTo 8 x fun i x => swap x i (i + 8)

def cubehashRound (x : Words 32) : Words 32 :=
  let x := addStep x
  let x := turnStep 7 x
  let x := swapStep x
  let x := xorStep x
  let x := upTo 16 x fun i x => if i &&& 2 = 0 then swap x (16 + i) (16 + (i ^^^ 2)) else x
  let x := addStep x
  let x := turnStep 11 x
  let x := upTo 16 x fun i x => if i &&& 4 = 0 then swap x i (i ^^^ 4) else x
  let x := xorStep x
  upTo 16 x fun i x => if i &&& 1 = 0 then swap x (16 + i) (16 + (i ^^^ 1)) else x

def cubehash512Block (x : Words 32) (block : List Byte) : Words 32 :=
  let x := upTo 8 x fun i x => x.write i (x.read i ^^^ leWordAt block i)
  upTo 16 x fun _ x => cubehashRound x

def wholeBlocks (x : Words 32) (p : List Byte) : Words 32 × List Byte :=
  if 32 ≤ p.length then wholeBlocks (cubehash512Block x (p.take 32)) (p.drop 32) else (x,p)
termination_by p.length

def cubehash512Full (data : List Byte) : List Byte :=
  let (x,rest) := wholeBlocks cubehash512Iv data
  let last := rest ++ 0x80 :: List.replicate (31 - rest.length) 0
  let x := cubehash512Block x last
  let x := x.write 31 (x.read 31 ^^^ 1)
  let x := upTo 160 x fun _ x => cubehashRound x
  (List.range 16).flatMap fun i => leBytes (x.read i)

end VkMiner.Cubehash
