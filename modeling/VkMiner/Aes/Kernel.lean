import VkMiner.Groestl.Slices
import VkMiner.Sha256d.Kernel
set_option autoImplicit false

/-! Two rounds of AES at a time as the kernels have them, bitsliced or by table. -/

namespace VkMiner.Aes.Glsl
open Loops
open Sha256d (Word)
open Sha256d.Glsl (rotr32)

/-! ### Bitsliced -/

def aesTranspose (d : Words 8) : Words 8 := Transpose.transpose d

def aesSubBytes (x : Words 8) : Words 8 :=
  aesTranspose (Groestl.Glsl.groestlBsSbox (aesTranspose x))

def aesXtime4 (a : Word) : Word :=
  ((a &&& 0x7f7f7f7f) <<< 1) ^^^ (((a >>> 7) &&& 0x01010101) * 0x1b)

def aesMixColumn (a : Word) : Word :=
  let r1 := rotr32 a 8
  aesXtime4 (a ^^^ r1) ^^^ r1 ^^^ rotr32 a 16 ^^^ rotr32 a 24

def diagonal (c0 c1 c2 c3 : Word) : Word :=
  (c0 &&& 0x000000ff) ||| (c1 &&& 0x0000ff00) ||| (c2 &&& 0x00ff0000) ||| (c3 &&& 0xff000000)

def aesShiftMix (x : Words 8) (b : Nat) : Words 8 :=
  let c0 := x.read (b + 0)
  let c1 := x.read (b + 1)
  let c2 := x.read (b + 2)
  let c3 := x.read (b + 3)
  let x := x.write (b + 0) (aesMixColumn (diagonal c0 c1 c2 c3))
  let x := x.write (b + 1) (aesMixColumn (diagonal c1 c2 c3 c0))
  let x := x.write (b + 2) (aesMixColumn (diagonal c2 c3 c0 c1))
  x.write (b + 3) (aesMixColumn (diagonal c3 c0 c1 c2))

/-! ### By table -/

def kAesT0Entries : List Word :=
  [0xa56363c6,0x847c7cf8,0x997777ee,0x8d7b7bf6,0x0df2f2ff,0xbd6b6bd6,0xb16f6fde,0x54c5c591,
    0x50303060,0x03010102,0xa96767ce,0x7d2b2b56,0x19fefee7,0x62d7d7b5,0xe6abab4d,0x9a7676ec,
    0x45caca8f,0x9d82821f,0x40c9c989,0x877d7dfa,0x15fafaef,0xeb5959b2,0xc947478e,0x0bf0f0fb,
    0xecadad41,0x67d4d4b3,0xfda2a25f,0xeaafaf45,0xbf9c9c23,0xf7a4a453,0x967272e4,0x5bc0c09b,
    0xc2b7b775,0x1cfdfde1,0xae93933d,0x6a26264c,0x5a36366c,0x413f3f7e,0x02f7f7f5,0x4fcccc83,
    0x5c343468,0xf4a5a551,0x34e5e5d1,0x08f1f1f9,0x937171e2,0x73d8d8ab,0x53313162,0x3f15152a,
    0x0c040408,0x52c7c795,0x65232346,0x5ec3c39d,0x28181830,0xa1969637,0x0f05050a,0xb59a9a2f,
    0x0907070e,0x36121224,0x9b80801b,0x3de2e2df,0x26ebebcd,0x6927274e,0xcdb2b27f,0x9f7575ea,
    0x1b090912,0x9e83831d,0x742c2c58,0x2e1a1a34,0x2d1b1b36,0xb26e6edc,0xee5a5ab4,0xfba0a05b,
    0xf65252a4,0x4d3b3b76,0x61d6d6b7,0xceb3b37d,0x7b292952,0x3ee3e3dd,0x712f2f5e,0x97848413,
    0xf55353a6,0x68d1d1b9,0x00000000,0x2cededc1,0x60202040,0x1ffcfce3,0xc8b1b179,0xed5b5bb6,
    0xbe6a6ad4,0x46cbcb8d,0xd9bebe67,0x4b393972,0xde4a4a94,0xd44c4c98,0xe85858b0,0x4acfcf85,
    0x6bd0d0bb,0x2aefefc5,0xe5aaaa4f,0x16fbfbed,0xc5434386,0xd74d4d9a,0x55333366,0x94858511,
    0xcf45458a,0x10f9f9e9,0x06020204,0x817f7ffe,0xf05050a0,0x443c3c78,0xba9f9f25,0xe3a8a84b,
    0xf35151a2,0xfea3a35d,0xc0404080,0x8a8f8f05,0xad92923f,0xbc9d9d21,0x48383870,0x04f5f5f1,
    0xdfbcbc63,0xc1b6b677,0x75dadaaf,0x63212142,0x30101020,0x1affffe5,0x0ef3f3fd,0x6dd2d2bf,
    0x4ccdcd81,0x140c0c18,0x35131326,0x2fececc3,0xe15f5fbe,0xa2979735,0xcc444488,0x3917172e,
    0x57c4c493,0xf2a7a755,0x827e7efc,0x473d3d7a,0xac6464c8,0xe75d5dba,0x2b191932,0x957373e6,
    0xa06060c0,0x98818119,0xd14f4f9e,0x7fdcdca3,0x66222244,0x7e2a2a54,0xab90903b,0x8388880b,
    0xca46468c,0x29eeeec7,0xd3b8b86b,0x3c141428,0x79dedea7,0xe25e5ebc,0x1d0b0b16,0x76dbdbad,
    0x3be0e0db,0x56323264,0x4e3a3a74,0x1e0a0a14,0xdb494992,0x0a06060c,0x6c242448,0xe45c5cb8,
    0x5dc2c29f,0x6ed3d3bd,0xefacac43,0xa66262c4,0xa8919139,0xa4959531,0x37e4e4d3,0x8b7979f2,
    0x32e7e7d5,0x43c8c88b,0x5937376e,0xb76d6dda,0x8c8d8d01,0x64d5d5b1,0xd24e4e9c,0xe0a9a949,
    0xb46c6cd8,0xfa5656ac,0x07f4f4f3,0x25eaeacf,0xaf6565ca,0x8e7a7af4,0xe9aeae47,0x18080810,
    0xd5baba6f,0x887878f0,0x6f25254a,0x722e2e5c,0x241c1c38,0xf1a6a657,0xc7b4b473,0x51c6c697,
    0x23e8e8cb,0x7cdddda1,0x9c7474e8,0x211f1f3e,0xdd4b4b96,0xdcbdbd61,0x868b8b0d,0x858a8a0f,
    0x907070e0,0x423e3e7c,0xc4b5b571,0xaa6666cc,0xd8484890,0x05030306,0x01f6f6f7,0x120e0e1c,
    0xa36161c2,0x5f35356a,0xf95757ae,0xd0b9b969,0x91868617,0x58c1c199,0x271d1d3a,0xb99e9e27,
    0x38e1e1d9,0x13f8f8eb,0xb398982b,0x33111122,0xbb6969d2,0x70d9d9a9,0x898e8e07,0xa7949433,
    0xb69b9b2d,0x221e1e3c,0x92878715,0x20e9e9c9,0x49cece87,0xff5555aa,0x78282850,0x7adfdfa5,
    0x8f8c8c03,0xf8a1a159,0x80898909,0x170d0d1a,0xdabfbf65,0x31e6e6d7,0xc6424284,0xb86868d0,
    0xc3414182,0xb0999929,0x772d2d5a,0x110f0f1e,0xcbb0b07b,0xfc5454a8,0xd6bbbb6d,0x3a16162c]

def kAesT0 : Words 256 := Words.ofList kAesT0Entries

/-- What a device makes of a shift by all the bits of a word, which GLSL leaves open: none are left,
or none are moved. -/
inductive FullShift where
  | clears
  | wraps
  deriving DecidableEq

def FullShift.shr (device : FullShift) (x : Word) (n : Nat) : Word :=
  if n < 32 then x >>> n
  else match device with
    | .clears => 0
    | .wraps => x >>> (n % 32)

def rotl32 (device : FullShift) (x : Word) (n : Nat) : Word := (x <<< n) ||| device.shr x (32 - n)

/-- `aes_table_load` of one table: every lane of the workgroup has written its part before any of
them reads. -/
def oneTable (width : Nat) : Words 256 :=
  Words.writeAll kAesT0.read (Words.zeros 256)
    ((List.range width).flatMap fun lane => strided lane width 256)

def fourTables (device : FullShift) (width : Nat) : Words 1024 :=
  ((List.range width).flatMap fun lane => strided lane width 256).foldl (fun t i =>
    upTo 4 t fun r t => t.write (256*r + i) (rotl32 device (kAesT0.read i) (8*r))) (Words.zeros 1024)

inductive Tables where
  | one
  | four
  deriving DecidableEq

/-- How a kernel has its AES. A workgroup that shares a table has at least one lane. -/
inductive Form where
  | sliced
  | table (tables : Tables) (device : FullShift) (width : Nat) (some : 0 < width)
  deriving DecidableEq

def aesT (tables : Tables) (device : FullShift) (width r : Nat) (x : Word) : Word :=
  match tables with
  | .one => rotl32 device ((oneTable width).read x.toNat) (8*r)
  | .four => (fourTables device width).read (256*r + x.toNat)

def aesTcol (t : Nat → Word → Word) (a b c d : Word) : Word :=
  t 0 (a &&& 0xff) ^^^ t 1 ((b >>> 8) &&& 0xff) ^^^ t 2 ((c >>> 16) &&& 0xff) ^^^ t 3 (d >>> 24)

def aesTableBlock (t : Nat → Word → Word) (b : Nat) (x : Words 8) : Words 8 :=
  let c0 := x.read b
  let c1 := x.read (b + 1)
  let c2 := x.read (b + 2)
  let c3 := x.read (b + 3)
  let x := x.write b (aesTcol t c0 c1 c2 c3)
  let x := x.write (b + 1) (aesTcol t c1 c2 c3 c0)
  let x := x.write (b + 2) (aesTcol t c2 c3 c0 c1)
  x.write (b + 3) (aesTcol t c3 c0 c1 c2)

/-- `aes_round2`: one round without a key on both blocks. -/
def aesRound2 (form : Form) (x : Words 8) : Words 8 :=
  match form with
  | .sliced => aesShiftMix (aesShiftMix (aesSubBytes x) 0) 4
  | .table tables device width _ =>
    upTo 2 x fun i x => aesTableBlock (aesT tables device width) (4*i) x

end VkMiner.Aes.Glsl
