import Mathlib.Algebra.Group.Nat.Defs
import VkMiner.Lib.Cells
import VkMiner.Sha256d.Host
set_option autoImplicit false

/-! Groestl-512 as the host has it, byte by byte. -/

namespace VkMiner.Groestl
open Loops
open Sha256d (Word Byte encode leWordAt)

/-! ### The field and the S-box -/

/-- What a pass of `gf_mul` has: the sum, and the two factors. -/
structure Product where
  r : Byte
  a : Byte
  b : Byte

def gfMulPass (s : Product) : Product :=
  let r := if s.b &&& 1 ≠ 0 then s.r ^^^ s.a else s.r
  ⟨r,(s.a <<< 1) ^^^ (if s.a &&& 0x80 ≠ 0 then 0x1b else 0),s.b >>> 1⟩

def gfMul (a b : Byte) : Byte := (upTo 8 ⟨0,a,b⟩ fun _ s => gfMulPass s).r

/-- The square, and the product of the squares so far. -/
structure Powers where
  sq : Byte
  inv : Byte

def powersPass (s : Powers) : Powers :=
  let sq := gfMul s.sq s.sq
  ⟨sq,gfMul s.inv sq⟩

def groestl512Sbox (x : Byte) : Byte :=
  let inv := (upTo 7 ⟨x,1⟩ fun _ s => powersPass s).inv
  let s := upTo 4 inv fun i s => s ^^^ ((inv <<< (i + 1)) ||| (inv >>> (8 - (i + 1))))
  s ^^^ 0x63

end VkMiner.Groestl
