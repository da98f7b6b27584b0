import VkMiner.Blake512.Host
import VkMiner.Progpow.Kernel
set_option autoImplicit false

/-! BLAKE-512 as the device has it, over any of its three kinds of lane, and the stage of x11. -/

namespace VkMiner.Blake512.Glsl
open Loops Halves
open Progpow.Glsl (bswap32)
open Sha256d (Word)
open Sha512 (Word64)

structure BkLane (L : Type) where
  bklane : Word → Word → L
  bklo : L → Word
  bkhi : L → Word
  xor : L → L → L
  bkadd : L → L → L
  bkrotr : L → Nat → L

def int64 : BkLane Word64 where
  bklane lo hi := lo.setWidth 64 ||| (hi.setWidth 64 <<< 32)
  bklo x := x.setWidth 32
  bkhi x := (x >>> 32).setWidth 32
  xor a b := a ^^^ b
  bkadd a b := a + b
  bkrotr x n := (x >>> n) ||| (x <<< (64 - n))

def pairs : BkLane Halves where
  bklane lo hi := ⟨lo,hi⟩
  bklo x := x.x
  bkhi x := x.y
  xor a b := ⟨a.x ^^^ b.x,a.y ^^^ b.y⟩
  bkadd a b := ⟨a.x + b.x,a.y + b.y + carry a.x b.x⟩
  bkrotr x n :=
    let v := if 32 ≤ n then ⟨x.y,x.x⟩ else x
    let s := n % 32
    if s = 0 then v else ⟨(v.x >>> s) ||| (v.y <<< (32 - s)),(v.y >>> s) ||| (v.x <<< (32 - s))⟩

/-- `VKMINER_BLAKE512_WIDE_ADD`: pairs of halves, packed for the adds alone. -/
def wideAdd : BkLane Halves := { pairs with bkadd := fun a b => split (a.join + b.join) }

def kBlake512Iv : Cells Halves 8 :=
  #v[⟨0xf3bcc908,0x6a09e667⟩,⟨0x84caa73b,0xbb67ae85⟩,⟨0xfe94f82b,0x3c6ef372⟩,
    ⟨0x5f1d36f1,0xa54ff53a⟩,⟨0xade682d1,0x510e527f⟩,⟨0x2b3e6c1f,0x9b05688c⟩,
    ⟨0xfb41bd6b,0x1f83d9ab⟩,⟨0x137e2179,0x5be0cd19⟩]

def kBlake512C : Cells Halves 16 :=
  #v[⟨0x85a308d3,0x243f6a88⟩,⟨0x03707344,0x13198a2e⟩,⟨0x299f31d0,0xa4093822⟩,
    ⟨0xec4e6c89,0x082efa98⟩,⟨0x38d01377,0x452821e6⟩,⟨0x34e90c6c,0xbe5466cf⟩,
    ⟨0xc97c50dd,0xc0ac29b7⟩,⟨0xb5470917,0x3f84d5b5⟩,⟨0x8979fb1b,0x9216d5d9⟩,
    ⟨0x98dfb5ac,0xd1310ba6⟩,⟨0xd01adfb7,0x2ffd72db⟩,⟨0x6a267e96,0xb8e1afed⟩,
    ⟨0xf12c7f99,0xba7c9045⟩,⟨0xb3916cf7,0x24a19947⟩,⟨0x858efc16,0x0801f2e2⟩,
    ⟨0x71574e69,0x636920d8⟩]

section
variable {L : Type} [Inhabited L] (B : BkLane L)

def blake512Iv (i : Nat) : L := B.bklane (kBlake512Iv.read i).x (kBlake512Iv.read i).y

def blake512C (i : Nat) : L := B.bklane (kBlake512C.read i).x (kBlake512C.read i).y

def blake512G (m : Cells L 16) (a b c d x y : Nat) (v : Cells L 16) : Cells L 16 :=
  let v := v.write a
    (B.bkadd (B.bkadd (v.read a) (v.read b)) (B.xor (m.read x) (blake512C B y)))
  let v := v.write d (B.bkrotr (B.xor (v.read d) (v.read a)) 32)
  let v := v.write c (B.bkadd (v.read c) (v.read d))
  let v := v.write b (B.bkrotr (B.xor (v.read b) (v.read c)) 25)
  let v := v.write a
    (B.bkadd (B.bkadd (v.read a) (v.read b)) (B.xor (m.read y) (blake512C B x)))
  let v := v.write d (B.bkrotr (B.xor (v.read d) (v.read a)) 16)
  let v := v.write c (B.bkadd (v.read c) (v.read d))
  v.write b (B.bkrotr (B.xor (v.read b) (v.read c)) 11)

def blake512Round (m : Cells L 16) (s0 s1 s2 s3 s4 s5 s6 s7 s8 s9 sa sb sc sd se sf : Nat)
    (v : Cells L 16) : Cells L 16 :=
  let v := blake512G B m 0 4 8 12 s0 s1 v
  let v := blake512G B m 1 5 9 13 s2 s3 v
  let v := blake512G B m 2 6 10 14 s4 s5 v
  let v := blake512G B m 3 7 11 15 s6 s7 v
  let v := blake512G B m 0 5 10 15 s8 s9 v
  let v := blake512G B m 1 6 11 12 sa sb v
  let v := blake512G B m 2 7 8 13 sc sd v
  blake512G B m 3 4 9 14 se sf v

def startOf (h : Cells L 8) (t : L) : Cells L 16 :=
  let v := upTo 8 (Cells.blank 16) fun i v => v.write i (h.read i)
  let v := upTo 4 v fun i v => v.write (8 + i) (blake512C B i)
  let v := v.write 12 (B.xor t (blake512C B 4))
  let v := v.write 13 (B.xor t (blake512C B 5))
  let v := v.write 14 (blake512C B 6)
  v.write 15 (blake512C B 7)

def rounds (m : Cells L 16) (v : Cells L 16) : Cells L 16 :=
  let v := blake512Round B m 0 1 2 3 4 5 6 7 8 9 10 11 12 13 14 15 v
  let v := blake512Round B m 14 10 4 8 9 15 13 6 1 12 0 2 11 7 5 3 v
  let v := blake512Round B m 11 8 12 0 5 2 15 13 10 14 3 6 7 1 9 4 v
  let v := blake512Round B m 7 9 3 1 13 12 11 14 2 6 5 10 4 0 15 8 v
  let v := blake512Round B m 9 0 5 7 2 4 10 15 14 1 11 12 6 8 3 13 v
  let v := blake512Round B m 2 12 6 10 0 11 8 3 4 13 7 5 15 14 1 9 v
  let v := blake512Round B m 12 5 1 15 14 13 4 10 0 7 6 3 9 2 8 11 v
  let v := blake512Round B m 13 11 7 14 12 1 3 9 5 0 15 4 8 6 2 10 v
  let v := blake512Round B m 6 15 14 9 11 3 0 8 12 2 13 7 1 4 10 5 v
  let v := blake512Round B m 10 2 8 4 7 6 1 5 15 11 9 14 3 12 13 0 v
  let v := blake512Round B m 0 1 2 3 4 5 6 7 8 9 10 11 12 13 14 15 v
  let v := blake512Round B m 14 10 4 8 9 15 13 6 1 12 0 2 11 7 5 3 v
  let v := blake512Round B m 11 8 12 0 5 2 15 13 10 14 3 6 7 1 9 4 v
  let v := blake512Round B m 7 9 3 1 13 12 11 14 2 6 5 10 4 0 15 8 v
  let v := blake512Round B m 9 0 5 7 2 4 10 15 14 1 11 12 6 8 3 13 v
  blake512Round B m 2 12 6 10 0 11 8 3 4 13 7 5 15 14 1 9 v

def blake512Compress (h : Cells L 8) (m : Cells L 16) (t : L) : Cells L 8 :=
  let v := rounds B m (startOf B h t)
  upTo 8 h fun i h => h.write i (B.xor (h.read i) (B.xor (v.read i) (v.read (8 + i))))

def headerBlock (push : X11Push) (nonce : Word) : Cells L 16 :=
  let m := upTo 9 (Cells.blank 16) fun i m =>
    m.write i (B.bklane (bswap32 (push.header.read (2*i + 1))) (bswap32 (push.header.read (2*i))))
  let m := m.write 9 (B.bklane nonce (bswap32 (push.header.read 18)))
  let m := m.write 10 (B.bklane 0 0x80000000)
  let m := m.write 11 (B.bklane 0 0)
  let m := m.write 12 (B.bklane 0 0)
  let m := m.write 13 (B.bklane 1 0)
  let m := m.write 14 (B.bklane 0 0)
  m.write 15 (B.bklane 640 0)

def x11Blake (push : X11Push) (nonce : Word) : Words 16 :=
  let h := upTo 8 (Cells.blank 8) fun i h => h.write i (blake512Iv B i)
  let h := blake512Compress B h (headerBlock B push nonce) (B.bklane 640 0)
  upTo 8 (Words.zeros 16) fun i s =>
    (s.write (2*i) (bswap32 (B.bkhi (h.read i)))).write (2*i + 1) (bswap32 (B.bklo (h.read i)))

end

inductive Lanes
  | wide
  | wideAdd
  | pairs
  deriving DecidableEq

def Lanes.x11Blake : Lanes → X11Push → Word → Words 16
  | wide => Glsl.x11Blake int64
  | wideAdd => Glsl.x11Blake Glsl.wideAdd
  | pairs => Glsl.x11Blake Glsl.pairs

end VkMiner.Blake512.Glsl
