import VkMiner.Aes.Kernel
import VkMiner.Lib.Quads
set_option autoImplicit false

/-! SHAvite-512's compression as the kernels have it: the keys of one round at a time, each block of
them made of the one before in its place. -/

namespace VkMiner.Shavite.Glsl
open Loops Quads
open Sha256d (Word)
open Aes.Glsl (Form aesRound2)

/-- Two quarters of the old block, each turned by a word, through one round side by side. -/
def nonlinearPair (form : Form) (k : Words 32) (q : Nat) (n : Words 32) : Words 32 :=
  let x := Words.zeros 8
  let x := ((x.write 0 (k.read (4*q + 1))).write 1 (k.read (4*q + 2))).write 2 (k.read (4*q + 3))
  let x := (x.write 3 (k.read (4*q))).write 4 (k.read (4*q + 5))
  let x := ((x.write 5 (k.read (4*q + 6))).write 6 (k.read (4*q + 7))).write 7 (k.read (4*q + 4))
  let x := aesRound2 form x
  upTo 8 n fun i n => n.write (4*q + i) (x.read i)

def chainQuarter (cnt : Words 4) (b q : Nat) (n : Words 32) : Words 32 :=
  let n := if 0 < q then
      upTo 4 n fun i n => n.write (4*q + i) (n.read (4*q + i) ^^^ n.read (4*q - 4 + i))
    else n
  let u := 32*b + 4*q
  if u = 32 then xorAt n 0 (cnt.read 0) (cnt.read 1) (cnt.read 2) (~~~cnt.read 3)
  else if u = 164 then xorAt n 4 (cnt.read 3) (cnt.read 2) (cnt.read 1) (~~~cnt.read 0)
  else if u = 316 then xorAt n 28 (cnt.read 2) (cnt.read 3) (cnt.read 0) (~~~cnt.read 1)
  else if u = 440 then xorAt n 24 (cnt.read 1) (cnt.read 0) (cnt.read 3) (~~~cnt.read 2)
  else n

def shavite512NextKeys (form : Form) (k : Words 32) (b : Nat) (cnt : Words 4) : Words 32 :=
  if b &&& 1 = 1 then
    let n := upTo 4 (Words.zeros 32) fun j n => nonlinearPair form k (2*j) n
    let n := upTo 4 n fun i n => n.write i (n.read i ^^^ k.read (28 + i))
    upTo 8 n fun q n => chainQuarter cnt b q n
  else
    upTo 32 (Words.zeros 32) fun i n =>
      n.write i (k.read i ^^^ (if i < 7 then k.read (25 + i) else n.read (i - 7)))

/-- The keys that are next, and the four quarters. -/
structure State where
  k : Words 32
  p : Words 16

/-- `x[i] ^= k[a + i]; x[4 + i] ^= k[b + i];` -/
def xorKeys (k : Words 32) (a b : Nat) (x : Words 8) : Words 8 :=
  upTo 4 x fun i x =>
    let x := x.write i (x.read i ^^^ k.read (a + i))
    x.write (4 + i) (x.read (4 + i) ^^^ k.read (b + i))

def sideBySide (form : Form) (k : Words 32) (p : Words 16) : Words 8 :=
  let x := upTo 4 (Words.zeros 8) fun i x =>
    (x.write i (p.read (4 + i) ^^^ k.read i)).write (4 + i) (p.read (12 + i) ^^^ k.read (16 + i))
  let x := upTo 3 x fun j x => xorKeys k (4*(j + 1)) (16 + 4*(j + 1)) (aesRound2 form x)
  aesRound2 form x

/-- The quarters (0, 1, 2, 3) become (3, 0, 1, 2). -/
def rotated (p : Words 16) : Words 16 :=
  upTo 4 p fun i p =>
    let t := p.read (12 + i)
    let p := p.write (12 + i) (p.read (8 + i))
    let p := p.write (8 + i) (p.read (4 + i))
    let p := p.write (4 + i) (p.read i)
    p.write i t

def round (form : Form) (cnt : Words 4) (r : Nat) (s : State) : State :=
  let k := if 0 < r then shavite512NextKeys form s.k r cnt else s.k
  let x := sideBySide form k s.p
  let p := upTo 4 s.p fun i p =>
    let p := p.write i (p.read i ^^^ x.read i)
    p.write (8 + i) (p.read (8 + i) ^^^ x.read (4 + i))
  ⟨k,rotated p⟩

def shavite512Compress (form : Form) (h : Words 16) (m : Words 32) (cnt : Words 4) : Words 16 :=
  let p := (upTo 14 ⟨m,h⟩ fun r s => round form cnt r s).p
  upTo 16 h fun i h => h.write i (h.read i ^^^ p.read i)

end VkMiner.Shavite.Glsl
