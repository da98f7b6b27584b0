import VkMiner.Aes.Host
import VkMiner.Lib.Quads
set_option autoImplicit false

/-! SHAvite-512's compression as the host has it: first the whole of the key schedule, then the rounds
that read it. -/

namespace VkMiner.Shavite
open Loops Quads
open Sha256d (Word Byte leWordAt)
open Aes (aesRoundLe)

structure Schedule where
  rk : Words 448
  u : Nat

/-- Where the counter goes in, each time in another order and with another word of it inverted. -/
def mixCounter (cnt : Words 4) (u : Nat) (rk : Words 448) : Words 448 :=
  if u = 32 then xorAt rk 32 (cnt.read 0) (cnt.read 1) (cnt.read 2) (~~~cnt.read 3)
  else if u = 164 then xorAt rk 164 (cnt.read 3) (cnt.read 2) (cnt.read 1) (~~~cnt.read 0)
  else if u = 316 then xorAt rk 316 (cnt.read 2) (cnt.read 3) (cnt.read 0) (~~~cnt.read 1)
  else if u = 440 then xorAt rk 440 (cnt.read 1) (cnt.read 0) (cnt.read 3) (~~~cnt.read 2)
  else rk

def nonlinearQuarter (cnt : Words 4) (s : Schedule) : Schedule :=
  let u := s.u
  let x := quad (s.rk.read (u - 31)) (s.rk.read (u - 30)) (s.rk.read (u - 29)) (s.rk.read (u - 32))
  let x := aesRoundLe x none
  let rk := upTo 4 s.rk fun i rk => rk.write (u + i) (x.read i ^^^ rk.read (u - 4 + i))
  ⟨mixCounter cnt u rk,u + 4⟩

def linearQuarter (s : Schedule) : Schedule :=
  let u := s.u
  let rk := s.rk
  let rk := rk.write (u + 0) (rk.read (u - 32) ^^^ rk.read (u - 7))
  let rk := rk.write (u + 1) (rk.read (u - 31) ^^^ rk.read (u - 6))
  let rk := rk.write (u + 2) (rk.read (u - 30) ^^^ rk.read (u - 5))
  let rk := rk.write (u + 3) (rk.read (u - 29) ^^^ rk.read (u - 4))
  ⟨rk,u + 4⟩

def expandLoop (cnt : Words 4) : Nat → Schedule → Option Schedule
  | 0,_ => none
  | n + 1,s =>
    let s := upTo 8 s fun _ s => nonlinearQuarter cnt s
    if s.u = 448 then some s
    else expandLoop cnt n (upTo 8 s fun _ s => linearQuarter s)

def firstWords (msg : List Byte) : Words 448 :=
  upTo 32 (Words.zeros 448) fun u rk => rk.write u (leWordAt msg u)

def shavite512Expand (msg : List Byte) (cnt : Words 4) : Option (Words 448) :=
  (expandLoop cnt 448 ⟨firstWords msg,32⟩).map Schedule.rk

def keyAt (rk : Words 448) (u : Nat) : Words 4 :=
  quad (rk.read u) (rk.read (u + 1)) (rk.read (u + 2)) (rk.read (u + 3))

/-- A quarter on its way through `F`, and the key that is next. -/
structure Passing where
  x : Words 4
  u : Nat

def keyedRound (rk : Words 448) (s : Passing) : Passing :=
  ⟨aesRoundLe s.x (some (keyAt rk s.u)),s.u + 4⟩

/-- The four quarters, and the key that is next. -/
structure Rounds where
  p : Words 16
  u : Nat

def takeF (rk : Words 448) (s : Rounds) (q : Nat) : Rounds :=
  let x := xor4 (word s.p (q + 1)) (keyAt rk s.u)
  let f := upTo 3 ⟨x,s.u + 4⟩ fun _ f => keyedRound rk f
  ⟨putWord s.p q (xor4 (word s.p q) (aesRoundLe f.x none)),f.u⟩

/-- The quarters (0, 1, 2, 3) become (3, 0, 1, 2). -/
def rotated (p : Words 16) : Words 16 :=
  let t := word p 3
  let p := putWord p 3 (word p 2)
  let p := putWord p 2 (word p 1)
  let p := putWord p 1 (word p 0)
  putWord p 0 t

def round (rk : Words 448) (s : Rounds) : Rounds :=
  let s := takeF rk (takeF rk s 0) 2
  ⟨rotated s.p,s.u⟩

def shavite512Rounds (h : Words 16) (rk : Words 448) : Words 16 :=
  let p := (upTo 14 ⟨h,0⟩ fun _ s => round rk s).p
  upTo 16 h fun i h => h.write i (h.read i ^^^ p.read i)

def shavite512Compress (h : Words 16) (msg : List Byte) (cnt : Words 4) : Option (Words 16) :=
  (shavite512Expand msg cnt).map (shavite512Rounds h)

end VkMiner.Shavite
