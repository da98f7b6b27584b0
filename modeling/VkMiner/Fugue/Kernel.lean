import VkMiner.Fugue.Host
import VkMiner.Sha256d.Kernel
set_option autoImplicit false

/-! Fugue-512 as the device has it, its super-mix by tables in workgroup memory, and the stage of
x13 that hashes 64 bytes with it. -/

namespace VkMiner.Fugue.Glsl
open Loops
open Progpow.Glsl (bswap32)
open Sha256d (Word)
open Sha256d.Glsl (rotr32)

def kFugue512Iv : Words 16 :=
  Words.ofList [0x8807a57e,0xe616af75,0xc5d3e4db,0xac9ab027,0xd915f117,0xb6eecc54,0x06e8020b,
    0x4a92efd1,0xaac6e2c9,0xddb21398,0xcae65838,0x437f203f,0x25ea78e7,0x951fddd6,0xda6ed11d,
    0xe13e3567]

def kFugue512Mix0Entries : List Word :=
  [0x63633297,0x7c7c6feb,0x77775ec7,0x7b7b7af7,0xf2f2e8e5,0x6b6b0ab7,0x6f6f16a7,0xc5c56d39,
    0x303090c0,0x01010704,0x67672e87,0x2b2bd1ac,0xfefeccd5,0xd7d71371,0xabab7c9a,0x767659c3,
    0xcaca4005,0x8282a33e,0xc9c94909,0x7d7d68ef,0xfafad0c5,0x5959947f,0x4747ce07,0xf0f0e6ed,
    0xadad6e82,0xd4d41a7d,0xa2a243be,0xafaf608a,0x9c9cf946,0xa4a451a6,0x727245d3,0xc0c0762d,
    0xb7b728ea,0xfdfdc5d9,0x9393d47a,0x2626f298,0x363682d8,0x3f3fbdfc,0xf7f7f3f1,0xcccc521d,
    0x34348cd0,0xa5a556a2,0xe5e58db9,0xf1f1e1e9,0x71714cdf,0xd8d83e4d,0x313197c4,0x15156b54,
    0x04041c10,0xc7c76331,0x2323e98c,0xc3c37f21,0x18184860,0x9696cf6e,0x05051b14,0x9a9aeb5e,
    0x0707151c,0x12127e48,0x8080ad36,0xe2e298a5,0xebeba781,0x2727f59c,0xb2b233fe,0x757550cf,
    0x09093f24,0x8383a43a,0x2c2cc4b0,0x1a1a4668,0x1b1b416c,0x6e6e11a3,0x5a5a9d73,0xa0a04db6,
    0x5252a553,0x3b3ba1ec,0xd6d61475,0xb3b334fa,0x2929dfa4,0xe3e39fa1,0x2f2fcdbc,0x8484b126,
    0x5353a257,0xd1d10169,0x00000000,0xededb599,0x2020e080,0xfcfcc2dd,0xb1b13af2,0x5b5b9a77,
    0x6a6a0db3,0xcbcb4701,0xbebe17ce,0x3939afe4,0x4a4aed33,0x4c4cff2b,0x5858937b,0xcfcf5b11,
    0xd0d0066d,0xefefbb91,0xaaaa7b9e,0xfbfbd7c1,0x4343d217,0x4d4df82f,0x333399cc,0x8585b622,
    0x4545c00f,0xf9f9d9c9,0x02020e08,0x7f7f66e7,0x5050ab5b,0x3c3cb4f0,0x9f9ff04a,0xa8a87596,
    0x5151ac5f,0xa3a344ba,0x4040db1b,0x8f8f800a,0x9292d37e,0x9d9dfe42,0x3838a8e0,0xf5f5fdf9,
    0xbcbc19c6,0xb6b62fee,0xdada3045,0x2121e784,0x10107040,0xffffcbd1,0xf3f3efe1,0xd2d20865,
    0xcdcd5519,0x0c0c2430,0x1313794c,0xececb29d,0x5f5f8667,0x9797c86a,0x4444c70b,0x1717655c,
    0xc4c46a3d,0xa7a758aa,0x7e7e61e3,0x3d3db3f4,0x6464278b,0x5d5d886f,0x19194f64,0x737342d7,
    0x60603b9b,0x8181aa32,0x4f4ff627,0xdcdc225d,0x2222ee88,0x2a2ad6a8,0x9090dd76,0x88889516,
    0x4646c903,0xeeeebc95,0xb8b805d6,0x14146c50,0xdede2c55,0x5e5e8163,0x0b0b312c,0xdbdb3741,
    0xe0e096ad,0x32329ec8,0x3a3aa6e8,0x0a0a3628,0x4949e43f,0x06061218,0x2424fc90,0x5c5c8f6b,
    0xc2c27825,0xd3d30f61,0xacac6986,0x62623593,0x9191da72,0x9595c662,0xe4e48abd,0x797974ff,
    0xe7e783b1,0xc8c84e0d,0x373785dc,0x6d6d18af,0x8d8d8e02,0xd5d51d79,0x4e4ef123,0xa9a97292,
    0x6c6c1fab,0x5656b943,0xf4f4fafd,0xeaeaa085,0x6565208f,0x7a7a7df3,0xaeae678e,0x08083820,
    0xbaba0bde,0x787873fb,0x2525fb94,0x2e2ecab8,0x1c1c5470,0xa6a65fae,0xb4b421e6,0xc6c66435,
    0xe8e8ae8d,0xdddd2559,0x747457cb,0x1f1f5d7c,0x4b4bea37,0xbdbd1ec2,0x8b8b9c1a,0x8a8a9b1e,
    0x70704bdb,0x3e3ebaf8,0xb5b526e2,0x66662983,0x4848e33b,0x0303090c,0xf6f6f4f5,0x0e0e2a38,
    0x61613c9f,0x35358bd4,0x5757be47,0xb9b902d2,0x8686bf2e,0xc1c17129,0x1d1d5374,0x9e9ef74e,
    0xe1e191a9,0xf8f8decd,0x9898e556,0x11117744,0x696904bf,0xd9d93949,0x8e8e870e,0x9494c166,
    0x9b9bec5a,0x1e1e5a78,0x8787b82a,0xe9e9a989,0xcece5c15,0x5555b04f,0x2828d8a0,0xdfdf2b51,
    0x8c8c8906,0xa1a14ab2,0x89899212,0x0d0d2334,0xbfbf10ca,0xe6e684b5,0x4242d513,0x686803bb,
    0x4141dc1f,0x9999e252,0x2d2dc3b4,0x0f0f2d3c,0xb0b03df6,0x5454b74b,0xbbbb0cda,0x16166258]

def kFugue512Mix0 : Words 256 := Words.ofList kFugue512Mix0Entries

def rotl32 (x : Word) (n : Nat) : Word := (x <<< n) ||| (x >>> (32 - n))

def loadEntry (t : Words 1024) (i : Nat) : Words 1024 :=
  let x := kFugue512Mix0.read i
  let t := t.write i x
  let t := t.write (256 + i) (rotr32 x 8)
  let t := t.write (512 + i) (rotl32 x 16)
  t.write (768 + i) (rotl32 x 8)

/-- `fugue_mix`: every lane of the workgroup has written its part, over whatever was there, before
any of them reads. -/
def fugueMix (garbage : Words 1024) (width : Nat) : Words 1024 :=
  ((List.range width).flatMap fun lane => strided lane width 256).foldl loadEntry garbage

variable (table : Words 1024)

def mix (r : Nat) (x : Word) : Word := table.read (256*r + x.toNat)

/-- The shared sums that `fugue512_smix` has of its four columns. -/
structure Sums where
  c0 : Word
  c1 : Word
  c2 : Word
  c3 : Word
  r0 : Word
  r1 : Word
  r2 : Word
  r3 : Word

/-- The sums of the columns `x0` to `x3`, each of them with the rows of the others. -/
def sums (x0 x1 x2 x3 : Word) : Sums :=
  let c0 := mix table 0 (x0 >>> 24)
  let t := mix table 1 ((x0 >>> 16) &&& 0xff)
  let c0 := c0 ^^^ t
  let r1 := t
  let t := mix table 2 ((x0 >>> 8) &&& 0xff)
  let c0 := c0 ^^^ t
  let r2 := t
  let t := mix table 3 (x0 &&& 0xff)
  let c0 := c0 ^^^ t
  let r3 := t
  let t := mix table 0 (x1 >>> 24)
  let c1 := t
  let r0 := t
  let t := mix table 1 ((x1 >>> 16) &&& 0xff)
  let c1 := c1 ^^^ t
  let t := mix table 2 ((x1 >>> 8) &&& 0xff)
  let c1 := c1 ^^^ t
  let r2 := r2 ^^^ t
  let t := mix table 3 (x1 &&& 0xff)
  let c1 := c1 ^^^ t
  let r3 := r3 ^^^ t
  let t := mix table 0 (x2 >>> 24)
  let c2 := t
  let r0 := r0 ^^^ t
  let t := mix table 1 ((x2 >>> 16) &&& 0xff)
  let c2 := c2 ^^^ t
  let r1 := r1 ^^^ t
  let t := mix table 2 ((x2 >>> 8) &&& 0xff)
  let c2 := c2 ^^^ t
  let t := mix table 3 (x2 &&& 0xff)
  let c2 := c2 ^^^ t
  let r3 := r3 ^^^ t
  let t := mix table 0 (x3 >>> 24)
  let c3 := t
  let r0 := r0 ^^^ t
  let t := mix table 1 ((x3 >>> 16) &&& 0xff)
  let c3 := c3 ^^^ t
  let r1 := r1 ^^^ t
  let t := mix table 2 ((x3 >>> 8) &&& 0xff)
  let c3 := c3 ^^^ t
  let r2 := r2 ^^^ t
  let t := mix table 3 (x3 &&& 0xff)
  let c3 := c3 ^^^ t
  ⟨c0,c1,c2,c3,r0,r1,r2,r3⟩

def bytes (a b c d : Word) : Word :=
  (a &&& 0xff000000) ||| (b &&& 0x00ff0000) ||| (c &&& 0x0000ff00) ||| (d &&& 0x000000ff)

def fugue512Smix (s : Words 36) : Words 36 :=
  let ⟨c0,c1,c2,c3,r0,r1,r2,r3⟩ := sums table (s.read 0) (s.read 1) (s.read 2) (s.read 3)
  let s := s.write 0 (bytes (c0 ^^^ r0) (c1 ^^^ r1) (c2 ^^^ r2) (c3 ^^^ r3))
  let s := s.write 1 (bytes (c1 ^^^ (r0 <<< 8)) (c2 ^^^ (r1 <<< 8)) (c3 ^^^ (r2 <<< 8))
    (c0 ^^^ (r3 >>> 24)))
  let s := s.write 2 (bytes (c2 ^^^ (r0 <<< 16)) (c3 ^^^ (r1 <<< 16)) (c0 ^^^ (r2 >>> 16))
    (c1 ^^^ (r3 >>> 16)))
  s.write 3 (bytes (c3 ^^^ (r0 <<< 24)) (c0 ^^^ (r1 >>> 8)) (c1 ^^^ (r2 >>> 8))
    (c2 ^^^ (r3 >>> 8)))

def fugue512Ror (s : Words 36) (n : Nat) : Words 36 :=
  upTo 36 s fun c u => u.write c (s.read ((c + 36 - n) % 36))

def fugue512Sub (s : Words 36) : Words 36 :=
  let s := fugue512Ror s 3
  let s := s.write 0 (s.read 0 ^^^ s.read 4)
  let s := s.write 1 (s.read 1 ^^^ s.read 5)
  let s := s.write 2 (s.read 2 ^^^ s.read 6)
  let s := s.write 18 (s.read 18 ^^^ s.read 4)
  let s := s.write 19 (s.read 19 ^^^ s.read 5)
  let s := s.write 20 (s.read 20 ^^^ s.read 6)
  fugue512Smix table s

def fugue512Word (s : Words 36) (w : Word) : Words 36 :=
  let s := s.write 22 (s.read 22 ^^^ s.read 0)
  let s := s.write 0 w
  let s := s.write 8 (s.read 8 ^^^ s.read 0)
  let s := s.write 1 (s.read 1 ^^^ s.read 24)
  let s := s.write 4 (s.read 4 ^^^ s.read 27)
  let s := s.write 7 (s.read 7 ^^^ s.read 30)
  upTo 4 s fun _ s => fugue512Sub table s

/-- `s[4] ^= s[0]; s[a] ^= s[0]; ..` -/
def addFirst (s : Words 36) (a b c : Nat) : Words 36 :=
  let s := s.write 4 (s.read 4 ^^^ s.read 0)
  let s := s.write a (s.read a ^^^ s.read 0)
  let s := s.write b (s.read b ^^^ s.read 0)
  s.write c (s.read c ^^^ s.read 0)

def finalRound (s : Words 36) : Words 36 :=
  let s := fugue512Smix table (fugue512Ror (addFirst s 9 18 27) 9)
  let s := fugue512Smix table (fugue512Ror (addFirst s 10 18 27) 9)
  let s := fugue512Smix table (fugue512Ror (addFirst s 10 19 27) 9)
  fugue512Smix table (fugue512Ror (addFirst s 10 19 28) 8)

def fugue512Final (s : Words 36) : Words 36 :=
  let s := upTo 32 s fun _ s => fugue512Sub table s
  let s := upTo 13 s fun _ s => finalRound table s
  addFirst s 9 18 27

/-- The state of Fugue, and the words that are still to come. -/
structure Pass where
  f : Words 36
  m : Words 18

def x13Start (garbage : Words 36) : Words 36 :=
  let f := upTo 20 garbage fun k f => f.write k 0
  upTo 16 f fun k f => f.write (20 + k) (kFugue512Iv.read k)

def x13Words (garbage : Words 18) (s : Words 16) : Words 18 :=
  let m := upTo 16 garbage fun k m => m.write k (bswap32 (s.read k))
  (m.write 16 0).write 17 512

def x13Pass (p : Pass) : Pass :=
  let f := fugue512Word table p.f (p.m.read 0)
  let f := fugue512Word table f (p.m.read 1)
  let f := fugue512Word table f (p.m.read 2)
  ⟨f,upTo 15 p.m fun k m => m.write k (m.read (k + 3))⟩

def x13Out : List Nat := [1,2,3,4,9,10,11,12,18,19,20,21,27,28,29,30]

/-- `x13_fugue`. `f` and `m` are what its arrays hold before anything is written to them. -/
def x13Fugue (f : Words 36) (m : Words 18) (s : Words 16) : Words 16 :=
  let p := upTo 6 ⟨x13Start f,x13Words m s⟩ fun _ p => x13Pass table p
  let f := fugue512Final table p.f
  let s := upTo 16 s fun k s => s.write k (f.read (x13Out.getD k 0))
  upTo 16 s fun k s => s.write k (bswap32 (s.read k))

end VkMiner.Fugue.Glsl
