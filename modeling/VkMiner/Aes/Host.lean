import VkMiner.Groestl.Host
set_option autoImplicit false

/-! One round of AES as the host has it. -/

namespace VkMiner.Aes
open Loops
open Sha256d (Word Byte)
open Groestl (groestl512Sbox)

def xtime (a : Byte) : Byte := (a <<< 1) ^^^ (if a &&& 0x80 ≠ 0 then 0x1b else 0)

def byteOf (x : Word) (r : Nat) : Byte := (x >>> (8*r)).setWidth 8

/-- The byte of row `r` in column `c` after SubBytes and ShiftRows. -/
def subShift (x : Words 4) (c r : Nat) : Byte := groestl512Sbox (byteOf (x.read ((c + r) &&& 3)) r)

def mixColumn (a : Nat → Byte) : Word :=
  let all := a 0 ^^^ a 1 ^^^ a 2 ^^^ a 3
  upTo 4 0 fun r w =>
    let b := a r ^^^ all ^^^ xtime (a r ^^^ a ((r + 1) &&& 3))
    w ||| (b.setWidth 32 <<< (8*r))

def aesRoundLe (x : Words 4) (key : Option (Words 4)) : Words 4 :=
  upTo 4 (Words.zeros 4) fun c out =>
    out.write c (mixColumn (subShift x c) ^^^ match key with
      | some key => key.read c
      | none => 0)

end VkMiner.Aes
