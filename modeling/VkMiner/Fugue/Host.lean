import VkMiner.Groestl.Host
set_option autoImplicit false

/-! Fugue-512 as the host has it, its super-mix written from the definition. -/

namespace VkMiner.Fugue
open Loops
open Sha256d (Word Byte beBytes wordAt)
open Groestl (groestl512Sbox)

def fugue512Iv : Words 16 :=
  #v[0x8807a57e,0xe616af75,0xc5d3e4db,0xac9ab027,0xd915f117,0xb6eecc54,0x06e8020b,0x4a92efd1,
    0xaac6e2c9,0xddb21398,0xcae65838,0x437f203f,0x25ea78e7,0x951fddd6,0xda6ed11d,0xe13e3567]

def fugueN (k i : Nat) : Byte :=
  (([[1,4,7,1],[1,1,4,7],[7,1,1,4],[4,7,1,1]] : List (List Byte)).getD k []).getD i 0

/-- The loop of `gmul`, over what is left of `b`. -/
def gmulFrom (p a b : Byte) : Byte :=
  if b = 0 then p
  else
    gmulFrom (if b &&& 1 ≠ 0 then p ^^^ a else p)
      ((a <<< 1) ^^^ (if a &&& 0x80 ≠ 0 then 0x1b else 0)) (b >>> 1)
termination_by b.toNat
decreasing_by
  next h =>
    have hpos : b.toNat ≠ 0 := fun he => h (BitVec.eq_of_toNat_eq he)
    rw [BitVec.toNat_ushiftRight,Nat.shiftRight_eq_div_pow]
    omega

def gmul (a b : Byte) : Byte := gmulFrom 0 a b

def fugueRor (s : Words 36) (n : Nat) : Words 36 :=
  upTo 36 (Words.zeros 36) fun c t => t.write ((c + n) % 36) (s.read c)

def fugueCmix (s : Words 36) : Words 36 :=
  let s := s.write 0 (s.read 0 ^^^ s.read 4)
  let s := s.write 1 (s.read 1 ^^^ s.read 5)
  let s := s.write 2 (s.read 2 ^^^ s.read 6)
  let s := s.write 18 (s.read 18 ^^^ s.read 4)
  let s := s.write 19 (s.read 19 ^^^ s.read 5)
  s.write 20 (s.read 20 ^^^ s.read 6)

/-- `u[j][i]`: byte `i` of column `j` after the S-box. -/
def substituted (s : Words 36) (j i : Nat) : Byte :=
  groestl512Sbox ((s.read j >>> (24 - 8*i)).setWidth 8)

def mixedByte (u : Nat → Nat → Byte) (n k : Nat) : Byte :=
  let j := (n + k) &&& 3
  let v := upTo 4 0 fun i v => v ^^^ gmul (fugueN k i) (u j i)
  let rest := upTo 4 0 fun i rest => if i ≠ k then rest ^^^ u i k else rest
  v ^^^ gmul (fugueN j k) rest

def fugueSmix (s : Words 36) : Words 36 :=
  let out : Words 4 := upTo 4 (Words.zeros 4) fun n out =>
    out.write n (upTo 4 0 fun k w =>
      w ||| ((mixedByte (substituted s) n k).setWidth 32 <<< (24 - 8*k)))
  upTo 4 s fun n s => s.write n (out.read n)

def fugueSub (s : Words 36) : Words 36 := fugueSmix (fugueCmix (fugueRor s 3))

def fugueTix (s : Words 36) (w : Word) : Words 36 :=
  let s := s.write 22 (s.read 22 ^^^ s.read 0)
  let s := s.write 0 w
  let s := s.write 8 (s.read 8 ^^^ s.read 0)
  let s := s.write 1 (s.read 1 ^^^ s.read 24)
  let s := s.write 4 (s.read 4 ^^^ s.read 27)
  s.write 7 (s.read 7 ^^^ s.read 30)

def fugueWord (s : Words 36) (w : Word) : Words 36 :=
  upTo 4 (fugueTix s w) fun _ s => fugueSub s

/-- `kFold[q][i]` -/
def kFold (q i : Nat) : Nat :=
  (([[9,18,27],[10,18,27],[10,19,27],[10,19,28]] : List (List Nat)).getD q []).getD i 0

def folded (s : Words 36) (a b c : Nat) : Words 36 :=
  let s := s.write 4 (s.read 4 ^^^ s.read 0)
  let s := s.write a (s.read a ^^^ s.read 0)
  let s := s.write b (s.read b ^^^ s.read 0)
  s.write c (s.read c ^^^ s.read 0)

def fugueFold (s : Words 36) : Words 36 :=
  upTo 4 s fun q s =>
    fugueSmix (fugueRor (folded s (kFold q 0) (kFold q 1) (kFold q 2)) (if q = 3 then 8 else 9))

def kOut : List Nat := [1,2,3,4,9,10,11,12,18,19,20,21,27,28,29,30]

def wholeWords (s : Words 36) (data : List Byte) : Words 36 × List Byte :=
  if 4 ≤ data.length then wholeWords (fugueWord s (wordAt data 0)) (data.drop 4) else (s,data)
termination_by data.length

def lastWord (data : List Byte) : Word :=
  upTo data.length 0 fun i w => w ||| ((data.getD i 0).setWidth 32 <<< (24 - 8*i))

def fugueStart : Words 36 :=
  upTo 16 (Words.zeros 36) fun i s => s.write (20 + i) (fugue512Iv.read i)

def fugueFinal (s : Words 36) : Words 36 :=
  folded (upTo 13 (upTo 32 s fun _ s => fugueSub s) fun _ s => fugueFold s) 9 18 27

def fugue512Full (data : List Byte) : List Byte :=
  let bits := BitVec.ofNat 64 data.length * 8
  let (s,rest) := wholeWords fugueStart data
  let s := if rest.length ≠ 0 then fugueWord s (lastWord rest) else s
  let s := fugueWord s ((bits >>> 32).setWidth 32)
  let s := fugueWord s (bits.setWidth 32)
  let s := fugueFinal s
  kOut.flatMap fun i => beBytes (s.read i)

end VkMiner.Fugue
