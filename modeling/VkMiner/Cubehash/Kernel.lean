import VkMiner.Cubehash.Host
set_option autoImplicit false

/-! CubeHash-512 as the device has it, two rounds at a time, and the stage of x11. -/

namespace VkMiner.Cubehash.Glsl
open Loops

def kCubehash512Iv : Words 32 :=
  Words.ofList
    [0x2aea2a61,0x50f494d4,0x2d538b8b,0x4167d83e,0x3fee2313,0xc701cf8c,0xcc39968e,0x50ac5695,
     0x4d42c787,0xa647a8b3,0x97cf0bef,0x825b4537,0xeef864d2,0xf22090c4,0xd0e5cd33,0xa23911ae,
     0xfcd398d9,0x148fe485,0x1b017bef,0xb6444532,0x6a536159,0x2ff5781c,0x91fa7934,0x0dbadea9,
     0xd65c8a2b,0xa5a70e75,0xb1c62456,0xbc796576,0x1921c8f7,0xe7989af1,0x7795d246,0xd43e3b44]

def swapTwos (x : Words 32) : Words 32 :=
  upTo 4 x fun i x => swap (swap x (16 + 4*i) (18 + 4*i)) (17 + 4*i) (19 + 4*i)

def swapFours (x : Words 32) : Words 32 :=
  upTo 2 x fun i x => upTo 4 x fun k x => swap x (8*i + k) (8*i + k + 4)

def swapOnes (x : Words 32) : Words 32 := upTo 8 x fun i x => swap x (16 + 2*i) (17 + 2*i)

def tenSteps (x : Words 32) : Words 32 :=
  let x := addStep x
  let x := turnStep 7 x
  let x := swapStep x
  let x := xorStep x
  let x := swapTwos x
  let x := addStep x
  let x := turnStep 11 x
  let x := swapFours x
  let x := xorStep x
  swapOnes x

def cubehashRound2 (x : Words 32) : Words 32 := tenSteps (tenSteps x)

def cubehash512Rounds (x : Words 32) (n : Nat) : Words 32 :=
  upTo ((n + 1) / 2) x fun _ x => cubehashRound2 x

def x11Cubehash (s : Words 16) : Words 16 :=
  let x := upTo 2 kCubehash512Iv fun b x =>
    cubehash512Rounds (upTo 8 x fun k x => x.write k (x.read k ^^^ s.read (8*b + k))) 16
  let x := x.write 0 (x.read 0 ^^^ 0x80)
  let x := cubehash512Rounds x 16
  let x := x.write 31 (x.read 31 ^^^ 1)
  let x := cubehash512Rounds x 160
  upTo 16 s fun k s => s.write k (x.read k)

end VkMiner.Cubehash.Glsl
