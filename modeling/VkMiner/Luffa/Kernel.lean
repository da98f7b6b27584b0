import VkMiner.Luffa.Host
import VkMiner.Progpow.Bits
set_option autoImplicit false

/-! Luffa-512 as the device has it, its lanes one after the other in one array, and the first stage
of the qubit kernel. -/

namespace VkMiner.Luffa.Glsl
open Loops Sha256d Progpow.Glsl

def luffaMul2 {n : Nat} (a : Words n) (b : Nat) : Words n :=
  let t := a.read (b + 7)
  let a := a.write (b + 7) (a.read (b + 6))
  let a := a.write (b + 6) (a.read (b + 5))
  let a := a.write (b + 5) (a.read (b + 4))
  let a := a.write (b + 4) (a.read (b + 3) ^^^ t)
  let a := a.write (b + 3) (a.read (b + 2) ^^^ t)
  let a := a.write (b + 2) (a.read (b + 1))
  let a := a.write (b + 1) (a.read (b + 0) ^^^ t)
  a.write (b + 0) t

def luffaSubCrumb (a0 a1 a2 a3 : Word) : Word × Word × Word × Word :=
  let t := a0
  let a0 := a0 ||| a1
  let a2 := a2 ^^^ a3
  let a1 := ~~~a1
  let a0 := a0 ^^^ a3
  let a3 := a3 &&& t
  let a1 := a1 ^^^ a3
  let a3 := a3 ^^^ a2
  let a2 := a2 &&& a0
  let a0 := ~~~a0
  let a2 := a2 ^^^ a1
  let a1 := a1 ||| a3
  let t := t ^^^ a1
  let a3 := a3 ^^^ a2
  let a2 := a2 &&& a1
  let a1 := a1 ^^^ a0
  (t,a1,a2,a3)

def luffaMixWord (u v : Word) : Word × Word :=
  let v := v ^^^ u
  let u := rotl32 u 2 ^^^ v
  let v := rotl32 v 14 ^^^ u
  let u := rotl32 u 10 ^^^ v
  (u,rotl32 v 1)

def mixAt {n : Nat} (v : Words n) (i j : Nat) : Words n :=
  let (x,y) := luffaMixWord (v.read i) (v.read j)
  (v.write i x).write j y

def luffaStep (v : Words 40) (b : Nat) (c0 c4 : Word) : Words 40 :=
  let (a0,a1,a2,a3) :=
    luffaSubCrumb (v.read (b + 0)) (v.read (b + 1)) (v.read (b + 2)) (v.read (b + 3))
  let v := (((v.write (b + 0) a0).write (b + 1) a1).write (b + 2) a2).write (b + 3) a3
  let (a5,a6,a7,a4) :=
    luffaSubCrumb (v.read (b + 5)) (v.read (b + 6)) (v.read (b + 7)) (v.read (b + 4))
  let v := (((v.write (b + 5) a5).write (b + 6) a6).write (b + 7) a7).write (b + 4) a4
  let v := mixAt v (b + 0) (b + 4)
  let v := mixAt v (b + 1) (b + 5)
  let v := mixAt v (b + 2) (b + 6)
  let v := mixAt v (b + 3) (b + 7)
  let v := v.write (b + 0) (v.read (b + 0) ^^^ c0)
  v.write (b + 4) (v.read (b + 4) ^^^ c4)

def luffaTweak (v : Words 40) (b : Nat) (j : Word) : Words 40 :=
  let v := v.write (b + 4) (rotl32 (v.read (b + 4)) j)
  let v := v.write (b + 5) (rotl32 (v.read (b + 5)) j)
  let v := v.write (b + 6) (rotl32 (v.read (b + 6)) j)
  v.write (b + 7) (rotl32 (v.read (b + 7)) j)

def xorLane (v : Words 40) (a c : Nat) : Words 40 :=
  upTo 8 v fun k v => v.write (a + k) (v.read (a + k) ^^^ v.read (c + k))

def luffaMix (v : Words 40) : Words 40 :=
  let a := upTo 8 (Words.zeros 8) fun k a => a.write k
    (v.read k ^^^ v.read (8 + k) ^^^ v.read (16 + k) ^^^ v.read (24 + k) ^^^ v.read (32 + k))
  let a := luffaMul2 a 0
  let v := upTo 40 v fun k v => v.write k (v.read k ^^^ a.read (k % 8))
  let b := upTo 8 (Words.zeros 8) fun k b => b.write k (v.read k)
  let b := luffaMul2 b 0
  let b := upTo 8 b fun k b => b.write k (b.read k ^^^ v.read (8 + k))
  let v := xorLane (luffaMul2 v 8) 8 16
  let v := xorLane (luffaMul2 v 16) 16 24
  let v := xorLane (luffaMul2 v 24) 24 32
  let v := xorLane (luffaMul2 v 32) 32 0
  let v := upTo 8 v fun k v => v.write k (b.read k)
  let v := xorLane (luffaMul2 v 0) 0 32
  let v := xorLane (luffaMul2 v 32) 32 24
  let v := xorLane (luffaMul2 v 24) 24 16
  let v := xorLane (luffaMul2 v 16) 16 8
  let v := luffaMul2 v 8
  upTo 8 v fun k v => v.write (8 + k) (v.read (8 + k) ^^^ b.read k)

def injectLane (j : Nat) (s : Words 40 × Words 8) : Words 40 × Words 8 :=
  (upTo 8 s.1 fun k v => v.write (8*j + k) (v.read (8*j + k) ^^^ s.2.read k),
    if j < 4 then luffaMul2 s.2 0 else s.2)

def luffa512Inject (v : Words 40) (m : Words 8) : Words 40 :=
  let v := (upTo 5 (luffaMix v,m) injectLane).1
  let v := luffaTweak v 8 1
  let v := luffaTweak v 16 2
  let v := luffaTweak v 24 3
  luffaTweak v 32 4

def luffa512Steps (v : Words 40) : Words 40 :=
  let v := luffaStep v 0 0x303994a6 0xe0337818
  let v := luffaStep v 0 0xc0e65299 0x441ba90d
  let v := luffaStep v 0 0x6cc33a12 0x7f34d442
  let v := luffaStep v 0 0xdc56983e 0x9389217f
  let v := luffaStep v 0 0x1e00108f 0xe5a8bce6
  let v := luffaStep v 0 0x7800423d 0x5274baf4
  let v := luffaStep v 0 0x8f5b7882 0x26889ba7
  let v := luffaStep v 0 0x96e1db12 0x9a226e9d
  let v := luffaStep v 8 0xb6de10ed 0x01685f3d
  let v := luffaStep v 8 0x70f47aae 0x05a17cf4
  let v := luffaStep v 8 0x0707a3d4 0xbd09caca
  let v := luffaStep v 8 0x1c1e8f51 0xf4272b28
  let v := luffaStep v 8 0x707a3d45 0x144ae5cc
  let v := luffaStep v 8 0xaeb28562 0xfaa7ae2b
  let v := luffaStep v 8 0xbaca1589 0x2e48f1c1
  let v := luffaStep v 8 0x40a46f3e 0xb923c704
  let v := luffaStep v 16 0xfc20d9d2 0xe25e72c1
  let v := luffaStep v 16 0x34552e25 0xe623bb72
  let v := luffaStep v 16 0x7ad8818f 0x5c58a4a4
  let v := luffaStep v 16 0x8438764a 0x1e38e2e7
  let v := luffaStep v 16 0xbb6de032 0x78e38b9d
  let v := luffaStep v 16 0xedb780c8 0x27586719
  let v := luffaStep v 16 0xd9847356 0x36eda57f
  let v := luffaStep v 16 0xa2c78434 0x703aace7
  let v := luffaStep v 24 0xb213afa5 0xe028c9bf
  let v := luffaStep v 24 0xc84ebe95 0x44756f91
  let v := luffaStep v 24 0x4e608a22 0x7e8fce32
  let v := luffaStep v 24 0x56d858fe 0x956548be
  let v := luffaStep v 24 0x343b138f 0xfe191be2
  let v := luffaStep v 24 0xd0ec4e3d 0x3cb226e5
  let v := luffaStep v 24 0x2ceb4882 0x5944a28e
  let v := luffaStep v 24 0xb3ad2208 0xa1c4c355
  let v := luffaStep v 32 0xf0d2e9e3 0x5090d577
  let v := luffaStep v 32 0xac11d7fa 0x2d1925ab
  let v := luffaStep v 32 0x1bcb66f2 0xb46496ac
  let v := luffaStep v 32 0x6f2d9bc9 0xd1925ab0
  let v := luffaStep v 32 0x78602649 0x29131ab6
  let v := luffaStep v 32 0x8edae952 0x0fc053c3
  let v := luffaStep v 32 0x3b6ba548 0x3f014f0c
  luffaStep v 32 0xedae9520 0xfc053c31

def luffa512Block (v : Words 40) (m : Words 8) : Words 40 := luffa512Steps (luffa512Inject v m)

def luffa512Out (v : Words 40) (k : Nat) : Word :=
  v.read k ^^^ v.read (8 + k) ^^^ v.read (16 + k) ^^^ v.read (24 + k) ^^^ v.read (32 + k)

def loadJob (job : QubitUniform) : Words 40 :=
  upTo 10 (Words.zeros 40) fun k v =>
    let w : Words 4 := job.v[k]?.getD (Words.zeros 4)
    let v := (v.write (4*k) (w.read 0)).write (4*k + 1) (w.read 1)
    (v.write (4*k + 2) (w.read 2)).write (4*k + 3) (w.read 3)

def qubitLuffa (job : QubitUniform) (nonce : Word) : Words 16 :=
  let v := loadJob job
  let v := v.write 3 (v.read 3 ^^^ nonce)
  let v := upTo 4 v fun i v =>
    let j := 1 + i
    v.write (9*j + 3) (v.read (9*j + 3) ^^^ rotl32 nonce (BitVec.ofNat 32 j))
  let v := luffa512Steps v
  let m := upTo 8 (Words.zeros 8) fun k m => m.write k 0
  let v := luffa512Block v m
  let s := upTo 8 (Words.zeros 16) fun k s => s.write k (bswap32 (luffa512Out v k))
  let v := luffa512Block v m
  upTo 8 s fun k s => s.write (8 + k) (bswap32 (luffa512Out v k))

end VkMiner.Luffa.Glsl
