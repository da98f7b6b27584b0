import VkMiner.Lib.Circuit
import VkMiner.Lib.Transpose
import VkMiner.Sha256d.Host
set_option autoImplicit false

/-! The bitsliced round of Groestl-512, its two circuits gate for gate. -/

namespace VkMiner.Groestl.Glsl
open Loops Circuit
open Sha256d (Word)

/-! ### The S-box -/

namespace SboxWires

def x (n : Nat) : Gate := .wire n

def y (n : Nat) : Gate := .wire (100 + n)

def t (n : Nat) : Gate := .wire (200 + n)

def z (n : Nat) : Gate := .wire (300 + n)

def s (n : Nat) : Gate := .wire (400 + n)

def gates : List Assign :=
  [assign (y 14) (x 3 ^^^ x 5),assign (y 8) (x 0 ^^^ x 5),assign (y 1) (x 1 ^^^ (x 2 ^^^ x 7)),
    assign (y 12) (x 0 ^^^ (x 6 ^^^ y 14)),assign (y 3) (x 6 ^^^ (y 8 ^^^ y 1)),
    assign (y 15) (x 4 ^^^ (x 5 ^^^ y 12)),assign (y 20) (x 1 ^^^ (x 4 ^^^ y 12)),
    assign (y 6) (x 7 ^^^ y 15),assign (y 10) (x 1 ^^^ (x 2 ^^^ y 15)),
    assign (y 11) (x 0 ^^^ (x 3 ^^^ y 20)),assign (y 7) (x 7 ^^^ y 11),
    assign (y 16) (x 1 ^^^ (x 2 ^^^ y 11)),assign (y 21) (x 0 ^^^ (x 6 ^^^ y 16)),
    assign (t 2) (y 12 &&& ~~~(x 4 ^^^ x 5)),assign (t 4) (t 2 ^^^ (y 3 &&& y 6)),
    assign (t 5) (x 7 &&& (x 3 ^^^ y 1)),assign (t 7) (y 16 &&& (x 0 ^^^ x 6)),
    assign (t 9) (t 7 ^^^ (y 1 &&& ~~~x 6)),assign (t 10) (y 7 &&& (x 0 ^^^ y 1)),
    assign (t 12) (y 11 &&& (x 0 ^^^ x 3)),assign (t 13) (y 14 &&& (y 10 ^^^ y 11)),
    assign (t 14) (t 12 ^^^ t 13),assign (t 16) (t 12 ^^^ (y 8 &&& y 10)),
    assign (t 18) (t 2 ^^^ (t 5 ^^^ t 16)),assign (t 20) (t 7 ^^^ (t 10 ^^^ t 16)),
    assign (t 21) (y 20 ^^^ (t 4 ^^^ t 14)),assign (t 22) (y 8 ^^^ (y 10 ^^^ t 18)),
    assign (t 23) (y 21 ^^^ (t 9 ^^^ t 14)),assign (t 24) (x 0 ^^^ (y 16 ^^^ t 20)),
    assign (t 26) (t 21 &&& t 23),assign (t 27) (t 24 ^^^ t 26),
    assign (t 29) ((t 21 &&& t 27) ^^^ (t 22 &&& ~~~t 27)),assign (t 31) (t 22 ^^^ t 26),
    assign (t 33) ((t 23 &&& t 31) ^^^ (t 24 &&& ~~~t 31)),assign (t 36) (t 24 &&& (t 27 ^^^ t 33)),
    assign (t 37) (t 23 ^^^ (t 33 ^^^ t 36)),assign (t 39) (t 29 &&& (t 27 ^^^ t 36)),
    assign (t 40) (t 21 ^^^ (t 22 ^^^ t 39)),assign (t 41) (t 37 ^^^ t 40),
    assign (t 42) (t 29 ^^^ t 33),assign (t 43) (t 29 ^^^ t 40),assign (t 44) (t 33 ^^^ t 37),
    assign (t 45) (t 41 ^^^ t 42),assign (z 2) (x 7 &&& t 33),assign (z 3) (y 16 &&& t 43),
    assign (z 4) (y 1 &&& t 40),assign (z 5) (t 29 &&& (x 7 ^^^ y 11)),assign (z 6) (y 11 &&& t 42),
    assign (z 7) (t 45 &&& (y 10 ^^^ y 11)),assign (z 8) (y 10 &&& t 41),
    assign (z 10) (y 3 &&& t 37),assign (z 11) (t 33 &&& (x 3 ^^^ y 1)),
    assign (z 12) (t 43 &&& (x 0 ^^^ x 6)),assign (z 13) (t 40 &&& (x 6 ^^^ y 1)),
    assign (z 14) (t 29 &&& (x 0 ^^^ y 1)),assign (z 15) (t 42 &&& (x 0 ^^^ x 3)),
    assign (z 16) (t 45 &&& (x 3 ^^^ x 5)),assign (t 46) (z 15 ^^^ z 16),
    assign (t 48) (z 5 ^^^ z 13),assign (t 49) (z 10 ^^^ (y 12 &&& t 44)),
    assign (t 53) (z 3 ^^^ (y 15 &&& t 44)),assign (t 55) (z 16 ^^^ (y 8 &&& t 41)),
    assign (t 57) (z 2 ^^^ (z 12 ^^^ t 53)),assign (t 58) (z 4 ^^^ t 46),
    assign (t 59) (z 3 ^^^ (z 6 ^^^ z 7)),assign (t 62) (z 7 ^^^ (z 8 ^^^ t 58)),
    assign (t 63) (t 49 ^^^ t 58),assign (t 64) (z 4 ^^^ t 59),
    assign (t 65) (z 14 ^^^ (t 57 ^^^ t 62)),assign (t 66) (t 63 ^^^ (y 6 &&& t 37)),
    assign (s 0) (t 59 ^^^ t 63),assign (s 6) (~~~(z 12) ^^^ (t 48 ^^^ t 62)),
    assign (s 7) (~~~(t 46) ^^^ (t 48 ^^^ t 57)),assign (s 3) (t 53 ^^^ t 66),
    assign (s 4) (z 2 ^^^ (z 5 ^^^ t 66)),assign (s 5) (z 10 ^^^ (z 11 ^^^ t 65)),
    assign (s 1) (~~~(t 53) ^^^ (t 64 ^^^ t 66)),assign (s 2) (~~~(t 55) ^^^ (t 64 ^^^ t 65))]

end SboxWires

def groestlBsSbox (q : Words 8) : Words 8 :=
  let s := run (words 32) SboxWires.gates fun n => q.read (7 - n)
  upTo 8 q fun i q => q.write (7 - i) (s (400 + i))

end VkMiner.Groestl.Glsl
