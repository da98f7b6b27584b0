import VkMiner.Bmw.Host
import VkMiner.Progpow.Kernel
set_option autoImplicit false

/-! BMW-512 as the device has it, over any of its three kinds of lane, and the bmw512 kernel. -/

namespace VkMiner.Bmw.Glsl
open Loops Halves Sha256d

structure BLane (L : Type) where
  blane : Word → Word → L
  blo : L → Word
  bhi : L → Word
  bxor : L → L → L
  badd : L → L → L
  bsub : L → L → L
  bshl : L → Nat → L
  bshr : L → Nat → L
  brotl : L → Nat → L

def int64 : BLane Word64 where
  blane lo hi := lo.setWidth 64 ||| (hi.setWidth 64 <<< 32)
  blo x := x.setWidth 32
  bhi x := (x >>> 32).setWidth 32
  bxor a b := a ^^^ b
  badd a b := a + b
  bsub a b := a - b
  bshl x n := x <<< n
  bshr x n := x >>> n
  brotl x n := (x <<< n) ||| (x >>> (64 - n))

def pairs : BLane Halves where
  blane lo hi := ⟨lo,hi⟩
  blo v := v.x
  bhi v := v.y
  bxor a b := ⟨a.x ^^^ b.x,a.y ^^^ b.y⟩
  badd a b := ⟨a.x + b.x,a.y + b.y + carry a.x b.x⟩
  bsub a b := ⟨a.x - b.x,a.y - b.y - borrow a.x b.x⟩
  bshl v n := ⟨v.x <<< n,(v.y <<< n) ||| (v.x >>> (32 - n))⟩
  bshr v n := ⟨(v.x >>> n) ||| (v.y <<< (32 - n)),v.y >>> n⟩
  brotl x n :=
    let v := if 32 ≤ n then ⟨x.y,x.x⟩ else x
    let s := n % 32
    if s = 0 then v else ⟨(v.x <<< s) ||| (v.y >>> (32 - s)),(v.y <<< s) ||| (v.x >>> (32 - s))⟩

/-- `VKMINER_BMW_WIDE_ADD`: pairs of halves, packed for the adds alone. -/
def wideAdd : BLane Halves :=
  { pairs with
    badd := fun a b => split (a.join + b.join)
    bsub := fun a b => split (a.join - b.join) }

namespace BLane

variable {L : Type} (B : BLane L)

def bmwS0 (x : L) : L :=
  B.bxor (B.bxor (B.bxor (B.bshr x 1) (B.bshl x 3)) (B.brotl x 4)) (B.brotl x 37)

def bmwS1 (x : L) : L :=
  B.bxor (B.bxor (B.bxor (B.bshr x 1) (B.bshl x 2)) (B.brotl x 13)) (B.brotl x 43)

def bmwS2 (x : L) : L :=
  B.bxor (B.bxor (B.bxor (B.bshr x 2) (B.bshl x 1)) (B.brotl x 19)) (B.brotl x 53)

def bmwS3 (x : L) : L :=
  B.bxor (B.bxor (B.bxor (B.bshr x 2) (B.bshl x 2)) (B.brotl x 28)) (B.brotl x 59)

def bmwS4 (x : L) : L := B.bxor (B.bshr x 1) x

def bmwS5 (x : L) : L := B.bxor (B.bshr x 2) x

end BLane

variable {L : Type} [Inhabited L] (B : BLane L)

def bmw512Iv (i : Word) : L :=
  let b := 0x80818283 + i * 0x08080808
  B.blane (b + 0x04040404) b

def bmw512KWords : Vector (Word × Word) 16 :=
  #v[(0x55555550,0x55555555),(0xaaaaaaa5,0x5aaaaaaa),(0xfffffffa,0x5fffffff),(0x5555554f,0x65555555),
    (0xaaaaaaa4,0x6aaaaaaa),(0xfffffff9,0x6fffffff),(0x5555554e,0x75555555),(0xaaaaaaa3,0x7aaaaaaa),
    (0xfffffff8,0x7fffffff),(0x5555554d,0x85555555),(0xaaaaaaa2,0x8aaaaaaa),(0xfffffff7,0x8fffffff),
    (0x5555554c,0x95555555),(0xaaaaaaa1,0x9aaaaaaa),(0xfffffff6,0x9fffffff),(0x5555554b,0xa5555555)]

def bmwF0 (q : Cells L 32) (h x : Cells L 16) (i : Nat) (s : L → L) (i0 : Nat)
    (op1 : L → L → L) (i1 : Nat) (op2 : L → L → L) (i2 : Nat) (op3 : L → L → L) (i3 : Nat)
    (op4 : L → L → L) (i4 : Nat) : Cells L 32 :=
  q.write i (B.badd
    (s (op4 (op3 (op2 (op1 (x.read i0) (x.read i1)) (x.read i2)) (x.read i3)) (x.read i4)))
    (h.read ((i + 1) % 16)))

def addElt (m h : Cells L 16) (i : Nat) : L :=
  let k := bmw512KWords[i]?.getD (0,0)
  B.bxor
    (B.badd
      (B.bsub
        (B.badd (B.brotl (m.read i) (i + 1))
          (B.brotl (m.read ((i + 3) % 16)) ((i + 3) % 16 + 1)))
        (B.brotl (m.read ((i + 10) % 16)) ((i + 10) % 16 + 1)))
      (B.blane k.1 k.2))
    (h.read ((i + 7) % 16))

def bmwExpand1 (m h : Cells L 16) (q : Cells L 32) (j : Nat) : Cells L 32 :=
  let v := addElt B m h (j - 16)
  let v := B.badd v (B.bmwS1 (q.read (j - 16)))
  let v := B.badd v (B.bmwS2 (q.read (j - 15)))
  let v := B.badd v (B.bmwS3 (q.read (j - 14)))
  let v := B.badd v (B.bmwS0 (q.read (j - 13)))
  let v := B.badd v (B.bmwS1 (q.read (j - 12)))
  let v := B.badd v (B.bmwS2 (q.read (j - 11)))
  let v := B.badd v (B.bmwS3 (q.read (j - 10)))
  let v := B.badd v (B.bmwS0 (q.read (j - 9)))
  let v := B.badd v (B.bmwS1 (q.read (j - 8)))
  let v := B.badd v (B.bmwS2 (q.read (j - 7)))
  let v := B.badd v (B.bmwS3 (q.read (j - 6)))
  let v := B.badd v (B.bmwS0 (q.read (j - 5)))
  let v := B.badd v (B.bmwS1 (q.read (j - 4)))
  let v := B.badd v (B.bmwS2 (q.read (j - 3)))
  let v := B.badd v (B.bmwS3 (q.read (j - 2)))
  let v := B.badd v (B.bmwS0 (q.read (j - 1)))
  q.write j v

def bmwExpand2 (m h : Cells L 16) (q : Cells L 32) (j : Nat) : Cells L 32 :=
  let v := addElt B m h (j - 16)
  let v := B.badd v (q.read (j - 16))
  let v := B.badd v (B.brotl (q.read (j - 15)) 5)
  let v := B.badd v (q.read (j - 14))
  let v := B.badd v (B.brotl (q.read (j - 13)) 11)
  let v := B.badd v (q.read (j - 12))
  let v := B.badd v (B.brotl (q.read (j - 11)) 27)
  let v := B.badd v (q.read (j - 10))
  let v := B.badd v (B.brotl (q.read (j - 9)) 32)
  let v := B.badd v (q.read (j - 8))
  let v := B.badd v (B.brotl (q.read (j - 7)) 37)
  let v := B.badd v (q.read (j - 6))
  let v := B.badd v (B.brotl (q.read (j - 5)) 43)
  let v := B.badd v (q.read (j - 4))
  let v := B.badd v (B.brotl (q.read (j - 3)) 53)
  let v := B.badd v (B.bmwS4 (q.read (j - 2)))
  let v := B.badd v (B.bmwS5 (q.read (j - 1)))
  q.write j v

def bmw512F0 (q : Cells L 32) (h m : Cells L 16) : Cells L 32 :=
  let x := upTo 16 (Cells.blank 16) fun i x => x.write i (B.bxor (m.read i) (h.read i))
  let q := bmwF0 B q h x 0 (B.bmwS0) 5 B.bsub 7 B.badd 10 B.badd 13 B.badd 14
  let q := bmwF0 B q h x 1 (B.bmwS1) 6 B.bsub 8 B.badd 11 B.badd 14 B.bsub 15
  let q := bmwF0 B q h x 2 (B.bmwS2) 0 B.badd 7 B.badd 9 B.bsub 12 B.badd 15
  let q := bmwF0 B q h x 3 (B.bmwS3) 0 B.bsub 1 B.badd 8 B.bsub 10 B.badd 13
  let q := bmwF0 B q h x 4 (B.bmwS4) 1 B.badd 2 B.badd 9 B.bsub 11 B.bsub 14
  let q := bmwF0 B q h x 5 (B.bmwS0) 3 B.bsub 2 B.badd 10 B.bsub 12 B.badd 15
  let q := bmwF0 B q h x 6 (B.bmwS1) 4 B.bsub 0 B.bsub 3 B.bsub 11 B.badd 13
  let q := bmwF0 B q h x 7 (B.bmwS2) 1 B.bsub 4 B.bsub 5 B.bsub 12 B.bsub 14
  let q := bmwF0 B q h x 8 (B.bmwS3) 2 B.bsub 5 B.bsub 6 B.badd 13 B.bsub 15
  let q := bmwF0 B q h x 9 (B.bmwS4) 0 B.bsub 3 B.badd 6 B.bsub 7 B.badd 14
  let q := bmwF0 B q h x 10 (B.bmwS0) 8 B.bsub 1 B.bsub 4 B.bsub 7 B.badd 15
  let q := bmwF0 B q h x 11 (B.bmwS1) 8 B.bsub 0 B.bsub 2 B.bsub 5 B.badd 9
  let q := bmwF0 B q h x 12 (B.bmwS2) 1 B.badd 3 B.bsub 6 B.bsub 9 B.badd 10
  let q := bmwF0 B q h x 13 (B.bmwS3) 2 B.badd 4 B.badd 7 B.badd 10 B.badd 11
  let q := bmwF0 B q h x 14 (B.bmwS4) 3 B.bsub 5 B.badd 8 B.bsub 11 B.bsub 12
  bmwF0 B q h x 15 (B.bmwS0) 12 B.bsub 4 B.bsub 6 B.bsub 9 B.badd 13

/-- `h[i] = badd(t, xl ^ q[24 + i] ^ q[i])`. -/
def foldLow (xl : L) (q : Cells L 32) (h : Cells L 16) (i : Nat) (t : L) : Cells L 16 :=
  h.write i (B.badd t (B.bxor (B.bxor xl (q.read (24 + i))) (q.read i)))

/-- `h[i] = badd(badd(brotl(h[k], n), xh ^ q[16 + i] ^ m[i]), t)`. -/
def foldHigh (xh : L) (q : Cells L 32) (m h : Cells L 16) (i k n : Nat) (t : L) : Cells L 16 :=
  h.write i (B.badd (B.badd (B.brotl (h.read k) n)
    (B.bxor (B.bxor xh (q.read (16 + i))) (m.read i))) t)

def bmw512F2 (h : Cells L 16) (q : Cells L 32) (m : Cells L 16) : Cells L 16 :=
  let xl := B.bxor (B.bxor (B.bxor (B.bxor (B.bxor (B.bxor (B.bxor (q.read 16) (q.read 17))
    (q.read 18)) (q.read 19)) (q.read 20)) (q.read 21)) (q.read 22)) (q.read 23)
  let xh := B.bxor (B.bxor (B.bxor (B.bxor (B.bxor (B.bxor (B.bxor (B.bxor xl (q.read 24))
    (q.read 25)) (q.read 26)) (q.read 27)) (q.read 28)) (q.read 29)) (q.read 30)) (q.read 31)
  let h := foldLow B xl q h 0 (B.bxor (B.bxor (B.bshl xh 5) (B.bshr (q.read 16) 5)) (m.read 0))
  let h := foldLow B xl q h 1 (B.bxor (B.bxor (B.bshr xh 7) (B.bshl (q.read 17) 8)) (m.read 1))
  let h := foldLow B xl q h 2 (B.bxor (B.bxor (B.bshr xh 5) (B.bshl (q.read 18) 5)) (m.read 2))
  let h := foldLow B xl q h 3 (B.bxor (B.bxor (B.bshr xh 1) (B.bshl (q.read 19) 5)) (m.read 3))
  let h := foldLow B xl q h 4 (B.bxor (B.bxor (B.bshr xh 3) (q.read 20)) (m.read 4))
  let h := foldLow B xl q h 5 (B.bxor (B.bxor (B.bshl xh 6) (B.bshr (q.read 21) 6)) (m.read 5))
  let h := foldLow B xl q h 6 (B.bxor (B.bxor (B.bshr xh 4) (B.bshl (q.read 22) 6)) (m.read 6))
  let h := foldLow B xl q h 7 (B.bxor (B.bxor (B.bshr xh 11) (B.bshl (q.read 23) 2)) (m.read 7))
  let h := foldHigh B xh q m h 8 4 9 (B.bxor (B.bxor (B.bshl xl 8) (q.read 23)) (q.read 8))
  let h := foldHigh B xh q m h 9 5 10 (B.bxor (B.bxor (B.bshr xl 6) (q.read 16)) (q.read 9))
  let h := foldHigh B xh q m h 10 6 11 (B.bxor (B.bxor (B.bshl xl 6) (q.read 17)) (q.read 10))
  let h := foldHigh B xh q m h 11 7 12 (B.bxor (B.bxor (B.bshl xl 4) (q.read 18)) (q.read 11))
  let h := foldHigh B xh q m h 12 0 13 (B.bxor (B.bxor (B.bshr xl 3) (q.read 19)) (q.read 12))
  let h := foldHigh B xh q m h 13 1 14 (B.bxor (B.bxor (B.bshr xl 4) (q.read 20)) (q.read 13))
  let h := foldHigh B xh q m h 14 2 15 (B.bxor (B.bxor (B.bshr xl 7) (q.read 21)) (q.read 14))
  foldHigh B xh q m h 15 3 16 (B.bxor (B.bxor (B.bshr xl 2) (q.read 22)) (q.read 15))

def bmw512Compress (h m : Cells L 16) : Cells L 16 :=
  let q := bmw512F0 B (Cells.blank 32) h m
  let q := bmwExpand1 B m h q 16
  let q := bmwExpand1 B m h q 17
  let q := bmwExpand2 B m h q 18
  let q := bmwExpand2 B m h q 19
  let q := bmwExpand2 B m h q 20
  let q := bmwExpand2 B m h q 21
  let q := bmwExpand2 B m h q 22
  let q := bmwExpand2 B m h q 23
  let q := bmwExpand2 B m h q 24
  let q := bmwExpand2 B m h q 25
  let q := bmwExpand2 B m h q 26
  let q := bmwExpand2 B m h q 27
  let q := bmwExpand2 B m h q 28
  let q := bmwExpand2 B m h q 29
  let q := bmwExpand2 B m h q 30
  let q := bmwExpand2 B m h q 31
  bmw512F2 B h q m

def bmw512Final (h : Cells L 16) : Cells L 16 :=
  let m := h
  let h := upTo 16 h fun i h =>
    h.write i (B.blane (0xaaaaaaa0 + BitVec.ofNat 32 i) 0xaaaaaaaa)
  bmw512Compress B h m

def bmw512Job (job : Bmw512Uniform) (i : Nat) : L :=
  let w : Words 4 := job.words[i >>> 1]?.getD (Words.zeros 4)
  if i &&& 1 = 0 then B.blane (w.read 0) (w.read 1) else B.blane (w.read 2) (w.read 3)

def bmwVar (k : Nat) : Bool := k ≥ 16 || k == 2 || k == 4 || k == 11 || k == 12 || k == 15

def addIf (k : Nat) (v term : L) : L := if bmwVar k then B.badd v term else v

def bmwExpand1Job (job : Bmw512Uniform) (q : Cells L 32) (j : Nat) : Cells L 32 :=
  let v := bmw512Job B job j
  let v := addIf B (j - 16) v (B.bmwS1 (q.read (j - 16)))
  let v := addIf B (j - 15) v (B.bmwS2 (q.read (j - 15)))
  let v := addIf B (j - 14) v (B.bmwS3 (q.read (j - 14)))
  let v := addIf B (j - 13) v (B.bmwS0 (q.read (j - 13)))
  let v := addIf B (j - 12) v (B.bmwS1 (q.read (j - 12)))
  let v := addIf B (j - 11) v (B.bmwS2 (q.read (j - 11)))
  let v := addIf B (j - 10) v (B.bmwS3 (q.read (j - 10)))
  let v := addIf B (j - 9) v (B.bmwS0 (q.read (j - 9)))
  let v := addIf B (j - 8) v (B.bmwS1 (q.read (j - 8)))
  let v := addIf B (j - 7) v (B.bmwS2 (q.read (j - 7)))
  let v := addIf B (j - 6) v (B.bmwS3 (q.read (j - 6)))
  let v := addIf B (j - 5) v (B.bmwS0 (q.read (j - 5)))
  let v := addIf B (j - 4) v (B.bmwS1 (q.read (j - 4)))
  let v := addIf B (j - 3) v (B.bmwS2 (q.read (j - 3)))
  let v := addIf B (j - 2) v (B.bmwS3 (q.read (j - 2)))
  let v := addIf B (j - 1) v (B.bmwS0 (q.read (j - 1)))
  q.write j v

def bmwExpand2Job (job : Bmw512Uniform) (q : Cells L 32) (j : Nat) (add : L) : Cells L 32 :=
  let v := B.badd (bmw512Job B job j) add
  let v := addIf B (j - 16) v (q.read (j - 16))
  let v := addIf B (j - 15) v (B.brotl (q.read (j - 15)) 5)
  let v := addIf B (j - 14) v (q.read (j - 14))
  let v := addIf B (j - 13) v (B.brotl (q.read (j - 13)) 11)
  let v := addIf B (j - 12) v (q.read (j - 12))
  let v := addIf B (j - 11) v (B.brotl (q.read (j - 11)) 27)
  let v := addIf B (j - 10) v (q.read (j - 10))
  let v := addIf B (j - 9) v (B.brotl (q.read (j - 9)) 32)
  let v := addIf B (j - 8) v (q.read (j - 8))
  let v := addIf B (j - 7) v (B.brotl (q.read (j - 7)) 37)
  let v := addIf B (j - 6) v (q.read (j - 6))
  let v := addIf B (j - 5) v (B.brotl (q.read (j - 5)) 43)
  let v := addIf B (j - 4) v (q.read (j - 4))
  let v := addIf B (j - 3) v (B.brotl (q.read (j - 3)) 53)
  let v := B.badd v (B.bmwS4 (q.read (j - 2)))
  q.write j (B.badd v (B.bmwS5 (q.read (j - 1))))

def nonceWord (q : Cells L 32) (h : Cells L 16) (i : Nat) (s : L → L) (op : L → L → L) (x9 : L) :
    Cells L 32 :=
  q.write i (B.badd (s (op (q.read i) x9)) (h.read ((i + 1) % 16)))

def bmw512CompressHeader (job : Bmw512Uniform) (h m : Cells L 16) : Cells L 16 :=
  let q := upTo 16 (Cells.blank 32) fun i q => q.write i (bmw512Job B job i)
  let x9 := B.bxor (m.read 9) (h.read 9)
  let q := nonceWord B q h 2 B.bmwS2 B.badd x9
  let q := nonceWord B q h 4 B.bmwS4 B.badd x9
  let q := nonceWord B q h 11 B.bmwS1 B.badd x9
  let q := nonceWord B q h 12 B.bmwS2 B.bsub x9
  let q := nonceWord B q h 15 B.bmwS0 B.bsub x9
  let r9 := B.brotl (m.read 9) 10
  let zero := B.blane 0 0
  let q := bmwExpand1Job B job q 16
  let q := bmwExpand1Job B job q 17
  let q := bmwExpand2Job B job q 18 zero
  let q := bmwExpand2Job B job q 19 zero
  let q := bmwExpand2Job B job q 20 zero
  let q := bmwExpand2Job B job q 21 zero
  let q := bmwExpand2Job B job q 22 (B.bxor (B.badd (bmw512Job B job 32) r9) (h.read 13))
  let q := bmwExpand2Job B job q 23 zero
  let q := bmwExpand2Job B job q 24 zero
  let q := bmwExpand2Job B job q 25 (B.bxor (B.badd (bmw512Job B job 33) r9) (h.read 0))
  let q := bmwExpand2Job B job q 26 zero
  let q := bmwExpand2Job B job q 27 zero
  let q := bmwExpand2Job B job q 28 zero
  let q := bmwExpand2Job B job q 29 zero
  let q := bmwExpand2Job B job q 30 zero
  let q := bmwExpand2Job B job q 31 (B.bxor (B.bsub (bmw512Job B job 34) r9) (h.read 6))
  bmw512F2 B h q m

/-- What `bmw512_search` computes of a nonce: the state, the digest in its last eight words. -/
def bmw512State (push : Bmw512Push) (job : Bmw512Uniform) (nonce : Word) : Cells L 16 :=
  let h := upTo 16 (Cells.blank 16) fun i h => h.write i (bmw512Iv B (BitVec.ofNat 32 i))
  let m := upTo 9 (Cells.blank 16) fun i m =>
    m.write i (B.blane (push.header.read (2*i)) (push.header.read (2*i + 1)))
  let m := m.write 9 (B.blane (push.header.read 18) (Progpow.Glsl.bswap32 nonce))
  let m := m.write 10 (B.blane 0x80 0)
  let m := upTo 4 m fun i m => m.write (11 + i) (B.blane 0 0)
  let m := m.write 15 (B.blane 640 0)
  bmw512Final B (bmw512CompressHeader B job h m)

def bmw512Search (push : Bmw512Push) (job : Bmw512Uniform) (nonce : Word) :
    Option Progpow.Candidate :=
  let h := bmw512State B push job nonce
  let top := B.bhi (h.read 11)
  let next := B.blo (h.read 11)
  if push.target.read 1 < top then none
  else if top = push.target.read 1 ∧ push.target.read 0 < next then none
  else
    let hash := upTo 4 (Words.zeros 8) fun i hash =>
      (hash.write (2*i) (B.blo (h.read (8 + i)))).write (2*i + 1) (B.bhi (h.read (8 + i)))
    some ⟨nonce,0,hash⟩

/-- The three modules over this text, by what `BLANE` is in them. -/
abbrev Module := Kind

def Module.lanes : (module : Module) → BLane module.Lane
  | .wide => int64
  | .wideAdd => wideAdd
  | .pairs => pairs

end VkMiner.Bmw.Glsl
