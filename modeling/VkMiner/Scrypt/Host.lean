import VkMiner.Sha256d.Digest
set_option autoImplicit false

/-! scrypt as the host has it, for any parameters, and what it works out for a dispatch. -/

namespace VkMiner.Scrypt
open Loops
open Sha256d (Word Byte beBytes leBytes encode leWordAt sha256Full)

def kBlockBytes : Nat := 64

def kDigestBytes : Nat := 32

/-- What one hash needs to itself. -/
def kScryptScratchBytes : Nat := 128*1*1024

/-! ### PBKDF2 -/

def hmacSha256 (key msg : List Byte) : List Byte :=
  let k0 := if kBlockBytes < key.length then sha256Full key else key
  let k0 := k0 ++ List.replicate (kBlockBytes - k0.length) 0
  let innerHash := sha256Full (k0.map (· ^^^ 0x36) ++ msg)
  sha256Full (k0.map (· ^^^ 0x5c) ++ innerHash)

/-- What the passes over one block come to: `u` is hashed again and laid onto `t`. -/
def pbkdf2Block (password salt : List Byte) (iterations : Nat) (block : Word) : List Byte :=
  let u := hmacSha256 password (salt ++ beBytes block)
  (upTo (iterations - 1) (u,u) fun _ s =>
    let u := hmacSha256 password s.1
    (u,List.zipWith (· ^^^ ·) s.2 u)).2

def pbkdf2From (password salt : List Byte) (iterations : Nat) (block : Word) (left : Nat) :
    List Byte :=
  if left = 0 then []
  else
    (pbkdf2Block password salt iterations block).take (Nat.min left kDigestBytes) ++
      pbkdf2From password salt iterations (block + 1) (left - kDigestBytes)
termination_by left
decreasing_by
  rw [kDigestBytes]
  omega

def pbkdf2Sha256 (password salt : List Byte) (iterations outLen : Nat) : List Byte :=
  pbkdf2From password salt iterations 1 outLen

/-! ### Salsa20/8 -/

def rotl32 (x : Word) (bits : Nat) : Word := (x <<< bits) ||| (x >>> (32 - bits))

/-- `x[d] ^= rotl32(x[a] + x[b], bits)`. -/
def salsaStep (x : Words 16) (d a b bits : Nat) : Words 16 :=
  x.write d (x.read d ^^^ rotl32 (x.read a + x.read b) bits)

def salsaColumns (x : Words 16) : Words 16 :=
  let x := salsaStep (salsaStep x 4 0 12 7) 8 4 0 9
  let x := salsaStep (salsaStep x 12 8 4 13) 0 12 8 18
  let x := salsaStep (salsaStep x 9 5 1 7) 13 9 5 9
  let x := salsaStep (salsaStep x 1 13 9 13) 5 1 13 18
  let x := salsaStep (salsaStep x 14 10 6 7) 2 14 10 9
  let x := salsaStep (salsaStep x 6 2 14 13) 10 6 2 18
  let x := salsaStep (salsaStep x 3 15 11 7) 7 3 15 9
  salsaStep (salsaStep x 11 7 3 13) 15 11 7 18

def salsaRows (x : Words 16) : Words 16 :=
  let x := salsaStep (salsaStep x 1 0 3 7) 2 1 0 9
  let x := salsaStep (salsaStep x 3 2 1 13) 0 3 2 18
  let x := salsaStep (salsaStep x 6 5 4 7) 7 6 5 9
  let x := salsaStep (salsaStep x 4 7 6 13) 5 4 7 18
  let x := salsaStep (salsaStep x 11 10 9 7) 8 11 10 9
  let x := salsaStep (salsaStep x 9 8 11 13) 10 9 8 18
  let x := salsaStep (salsaStep x 12 15 14 7) 13 12 15 9
  salsaStep (salsaStep x 14 13 12 13) 15 14 13 18

def salsa20_8 (block : Words 16) : Words 16 :=
  let x := upTo 4 block fun _ x => salsaRows (salsaColumns x)
  upTo 16 block fun i block => block.write i (block.read i + x.read i)

/-! ### ROMix -/

/-- What the loop over the blocks of a lane carries. -/
structure Mixing (r : Nat) where
  x : Words 16
  out : Words (32*r)

def blockMix (r : Nat) (input out : Words (32*r)) : Words (32*r) :=
  let x := upTo 16 (Words.zeros 16) fun k x => x.write k (input.read ((2*r - 1)*16 + k))
  let s : Mixing r := upTo (2*r) ⟨x,out⟩ fun i s =>
    let x := upTo 16 s.x fun k x => x.write k (x.read k ^^^ input.read (i*16 + k))
    let x := salsa20_8 x
    let slot := i/2 + if i % 2 = 1 then r else 0
    ⟨x,upTo 16 s.out fun k out => out.write (slot*16 + k) (x.read k)⟩
  s.out

/-- The block of a lane, its scratchpad and the place that a block is mixed to. -/
structure Pads (r n : Nat) where
  b : Words (32*r)
  v : Words (32*r*n)
  tmp : Words (32*r)

def keep (r n i : Nat) (s : Pads r n) : Pads r n :=
  let v := upTo (32*r) s.v fun k v => v.write (i*(32*r) + k) (s.b.read k)
  let tmp := blockMix r s.b s.tmp
  ⟨tmp,v,tmp⟩

def goBack (r n : Nat) (s : Pads r n) : Pads r n :=
  let j := (s.b.read (32*r - 16)).toNat &&& (n - 1)
  let b := upTo (32*r) s.b fun k b => b.write k (b.read k ^^^ s.v.read (j*(32*r) + k))
  let tmp := blockMix r b s.tmp
  ⟨tmp,s.v,tmp⟩

def romix (r n : Nat) (s : Pads r n) : Pads r n :=
  let s := upTo n s fun i s => keep r n i s
  upTo n s fun _ s => goBack r n s

/-! ### scrypt -/

def scryptLane (r n i : Nat) (s : List Byte × Pads r n) : List Byte × Pads r n :=
  let blockBytes := 128*r
  let lane := s.1.drop (i*blockBytes)
  let block := upTo (32*r) s.2.b fun k block => block.write k (leWordAt lane k)
  let pads := romix r n { s.2 with b := block }
  (s.1.take (i*blockBytes) ++ pads.b.toList.flatMap leBytes ++ s.1.drop ((i + 1)*blockBytes),pads)

def scrypt (password salt : List Byte) (n r p outLen : Nat) : List Byte :=
  if n < 2 ∨ n &&& (n - 1) ≠ 0 ∨ r = 0 ∨ p = 0 then List.replicate outLen 0
  else
    let b := pbkdf2Sha256 password salt 1 (128*r*p)
    let pads : Pads r n := ⟨Words.zeros (32*r),Words.zeros (32*r*n),Words.zeros (32*r)⟩
    let s := upTo p (b,pads) fun i s => scryptLane r n i s
    pbkdf2Sha256 password s.1 1 outLen

/-! ### The algorithm -/

structure ScryptPush where
  header : Words 19
  target : Words 8
  nonceStart : Word
  count : Word
  capacity : Word

def pushBytes : Nat := 120

def prepare (dispatch : Sha256d.Dispatch) (capacity : Nat) : Option ScryptPush :=
  match dispatch.header,dispatch.target with
  | some header,some target =>
    if capacity < pushBytes then none
    else
      let words := upTo 19 (Words.zeros 19) fun i words => words.write i (header.read i)
      some ⟨words,target,dispatch.nonceStart.setWidth 32,dispatch.count,dispatch.capacity⟩
  | _,_ => none

def hash (header : Words 20) (nonce : BitVec 64) : Words 8 :=
  let data := encode (header.toList.take 19 ++ [nonce.setWidth 32])
  let digest := scrypt data data 1024 1 1 kDigestBytes
  upTo 8 (Words.zeros 8) fun i out => out.write i (leWordAt digest i)

end VkMiner.Scrypt
