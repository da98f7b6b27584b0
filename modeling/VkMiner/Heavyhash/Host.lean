import VkMiner.Heavyhash.Rank
import VkMiner.Lib.Halves
import VkMiner.Lib.Keccak
import VkMiner.Sha256d.Host
set_option autoImplicit false

/-! The heavyhash of the host, the matrix that it draws, and what it works out for a dispatch. -/

namespace VkMiner.Heavyhash
open Loops Cells
open Sha256d (Word Byte Dispatch encode leWordAt)

abbrev Word64 := BitVec 64

/-! ### SHA-3 -/

def kRc : Cells Word64 24 :=
  #v[0x0000000000000001,0x0000000000008082,0x800000000000808a,0x8000000080008000,
    0x000000000000808b,0x0000000080000001,0x8000000080008081,0x8000000000008009,
    0x000000000000008a,0x0000000000000088,0x0000000080008009,0x000000008000000a,
    0x000000008000808b,0x800000000000008b,0x8000000000008089,0x8000000000008003,
    0x8000000000008002,0x8000000000000080,0x000000000000800a,0x800000008000000a,
    0x8000000080008081,0x8000000000008080,0x0000000080000001,0x8000000080008008]

def kRho (i : Nat) : Nat :=
  [0,1,62,28,27,36,44,6,55,20,3,10,43,25,39,41,45,15,21,8,18,2,61,56,14].getD i 0

def rotl64 (x : Word64) (n : Nat) : Word64 := if n = 0 then x else (x <<< n) ||| (x >>> (64 - n))

def lanes : Keccak.Lanes Word64 where
  xor := (· ^^^ ·)
  and := (· &&& ·)
  not := (~~~ ·)
  rotl := rotl64

def keccakf (a : Cells Word64 25) : Cells Word64 25 :=
  upTo 24 a fun r a => Keccak.round lanes kRho a (kRc.read r)

def absorb (p : List Byte) : Cells Word64 25 :=
  let a := upTo p.length (blank 25) fun i a =>
    a.write (i / 8) (a.read (i / 8) ^^^ ((p.getD i 0).setWidth 64 <<< (8 * (i % 8))))
  let a := a.write (p.length / 8) (a.read (p.length / 8) ^^^ ((0x06 : Word64) <<< (8 * (p.length % 8))))
  a.write 16 (a.read 16 ^^^ 0x8000000000000000)

def heavyhashSha3_256 (p : List Byte) : List Byte :=
  let a := keccakf (absorb p)
  (List.range 32).map fun i => (a.read (i / 8) >>> (8 * (i % 8))).setWidth 8

/-! ### The matrix -/

/-- An array of 64 rows of 64 entries of four bits. -/
structure FourBit where
  entries : Square Byte
  small : ∀ r < 64, ∀ c < 64, entry entries r c < 16

def le64 (p : List Byte) : Word64 :=
  upTo 8 0 fun i v => (v <<< 8) ||| (p.getD (7 - i) 0).setWidth 64

def xoshiro (s : Cells Word64 4) : Word64 × Cells Word64 4 :=
  let result := rotl64 (s.read 0 + s.read 3) 23 + s.read 0
  let t := s.read 1 <<< 17
  let s := s.write 2 (s.read 2 ^^^ s.read 0)
  let s := s.write 3 (s.read 3 ^^^ s.read 1)
  let s := s.write 1 (s.read 1 ^^^ s.read 2)
  let s := s.write 0 (s.read 0 ^^^ s.read 3)
  let s := s.write 2 (s.read 2 ^^^ t)
  (result,s.write 3 (rotl64 (s.read 3) 45))

structure Drawing where
  matrix : Square Byte
  s : Cells Word64 4

def putSixteen (m : Square Byte) (i j : Nat) (value : Word64) : Square Byte :=
  upTo 16 m fun k m => put m i (j + k) (((value >>> (4 * k)) &&& 0xf).setWidth 8)

def SmallBefore (i c : Nat) (m : Square Byte) : Prop :=
  ∀ r < 64, ∀ c' < 64, r < i ∨ r = i ∧ c' < c → entry m r c' < 16

theorem putSixteen_small {m : Square Byte} {i j : Nat} (value : Word64) (hi : i < 64)
    (hj : j < 4) (hm : SmallBefore i (16 * j) m) :
    SmallBefore i (16 * (j + 1)) (putSixteen m i (16 * j) value) := by
  rw [Nat.mul_succ]
  refine upTo_invariant (n := 16) (P := fun k => SmallBefore i (16 * j + k)) hm
    fun k hk m hm r hr c hc hb => ?_
  rw [entry_put hi (by omega) hc]
  split
  · have hlow : (((value >>> (4 * k)) &&& 0xf).setWidth 8 : Byte).toNat < 16 := by
      rw [BitVec.toNat_setWidth,BitVec.toNat_and]
      exact (Nat.mod_le _ _).trans_lt (Nat.and_lt_two_pow (n := 4) _ (by decide))
    exact hlow
  · next hne => exact hm r hr c hc (by omega)

def drawRow (i : Nat) (d : Drawing) : Drawing :=
  upTo 4 d fun j d =>
    let (value,s) := xoshiro d.s
    ⟨putSixteen d.matrix i (16 * j) value,s⟩

/-- One pass of the loop that draws a matrix, over whatever was there before. -/
def draw (d : Drawing) : Drawing := upTo 64 d drawRow

theorem drawRow_small {i : Nat} (d : Drawing) (hi : i < 64) (hd : SmallBefore i 0 d.matrix) :
    SmallBefore i 64 (drawRow i d).matrix := by
  unfold drawRow
  exact upTo_invariant (n := 4) (P := fun j (d : Drawing) => SmallBefore i (16 * j) d.matrix) hd
    fun j hj d hd => putSixteen_small _ hi hj hd

theorem draw_small (d : Drawing) : SmallBefore 64 0 (draw d).matrix := by
  unfold draw
  refine upTo_invariant (P := fun i (d : Drawing) => SmallBefore i 0 d.matrix)
    (fun r _ c _ hb => by omega) fun i hi d hd r hr c hc hb => ?_
  exact drawRow_small d hi hd r hr c hc (by omega)

theorem draw_fourBit (d : Drawing) :
    ∀ r < 64, ∀ c < 64, entry (draw d).matrix r c < 16 := fun r hr c hc =>
  draw_small d r hr c hc (.inl hr)

/-- The loop that draws until the rank is full, for at most so many draws. -/
def drawFull : Nat → Drawing → Option FourBit
  | 0,_ => none
  | tries + 1,d =>
    if heavyhashFullRank (draw d).matrix = some true then some ⟨(draw d).matrix,draw_fourBit d⟩
    else drawFull tries (draw d)

/-- Every pass writes the whole array, so it is of no account what was there before. -/
def heavyhashMatrixFromSeed (tries : Nat) (seed : List Byte) : Option FourBit :=
  drawFull tries ⟨blank 4096,upTo 4 (blank 4) fun i s => s.write i (le64 (seed.drop (8 * i)))⟩

def heavyhashMatrix (tries : Nat) (header80 : List Byte) : Option FourBit :=
  heavyhashMatrixFromSeed tries (heavyhashSha3_256 ((header80.drop 4).take 32))

/-! ### The hash -/

def nibblesOf (first : List Byte) : Words 64 :=
  upTo 32 (Words.zeros 64) fun b nibble =>
    (nibble.write (2*b) ((first.getD b 0 >>> 4).setWidth 32)).write (2*b + 1)
      ((first.getD b 0 &&& 0xf).setWidth 32)

def productsOf (matrix : Square Byte) (nibble : Words 64) : Words 64 :=
  upTo 64 (Words.zeros 64) fun i product =>
    let sum := upTo 64 0 fun j sum => sum + (entry matrix i j).setWidth 32 * nibble.read j
    product.write i (sum >>> 10)

def heavyhashCore (matrix : Square Byte) (data : List Byte) : List Byte :=
  let first := heavyhashSha3_256 data
  let product := productsOf matrix (nibblesOf first)
  let xored := (List.range 32).map fun b =>
    ((first.getD b 0).setWidth 32 ^^^
      ((product.read (2*b) <<< 4) ||| product.read (2*b + 1))).setWidth 8
  heavyhashSha3_256 xored

/-! ### A dispatch -/

def wireHeader (header : Words 20) : List Byte :=
  encode (header.toList.take 19) ++ List.replicate 4 0

/-- The matrix of the last previous block hash that one was asked for, in a run that never has to
draw more than `tries` of them. -/
structure Cache (tries : Nat) where
  held : Option (List Byte × FourBit)
  drawn : ∀ prev m,held = some (prev,m) →
    heavyhashMatrixFromSeed tries (heavyhashSha3_256 prev) = some m

section
variable {tries : Nat}

def Cache.empty : Cache tries := ⟨none,fun _ _ h => nomatch h⟩

def Cache.hold (prev : List Byte) (m : FourBit)
    (h : heavyhashMatrixFromSeed tries (heavyhashSha3_256 prev) = some m) : Cache tries :=
  ⟨some (prev,m),fun _ _ heq => by
    obtain ⟨rfl,rfl⟩ := Prod.mk.inj (Option.some.inj heq)
    exact h⟩

def redraw (tries : Nat) (wire : List Byte) : Option (FourBit × Cache tries) :=
  match h : heavyhashMatrix tries wire with
  | none => none
  | some m => some (m,.hold ((wire.drop 4).take 32) m h)

def matrixFor (cache : Cache tries) (wire : List Byte) : Option (FourBit × Cache tries) :=
  match cache.held with
  | none => redraw tries wire
  | some (prev,m) => if prev ≠ (wire.drop 4).take 32 then redraw tries wire else some (m,cache)

theorem redraw_eq (tries : Nat) (wire : List Byte) :
    (redraw tries wire).map Prod.fst = heavyhashMatrix tries wire := by
  unfold redraw
  split
  · next h => rw [h,Option.map_none]
  · next m h => exact h.symm

theorem matrixFor_eq (cache : Cache tries) (wire : List Byte) :
    (matrixFor cache wire).map Prod.fst = heavyhashMatrix tries wire := by
  unfold matrixFor
  split
  · exact redraw_eq tries wire
  · next prev m hheld =>
    split
    · exact redraw_eq tries wire
    · next heq =>
      obtain rfl := not_ne_iff.mp heq
      exact (cache.drawn _ _ hheld).symm

end

structure HeavyhashPush where
  block : Words 19
  target : Words 8
  nonceStart : Word
  count : Word
  capacity : Word

def pushBytes : Nat := 120

def prepare (dispatch : Dispatch) (capacity : Nat) : Option HeavyhashPush :=
  match dispatch.header,dispatch.target with
  | some header,some target =>
    if capacity < pushBytes then none
    else
      let wire := wireHeader header
      let block := upTo 19 (Words.zeros 19) fun i block => block.write i (leWordAt wire i)
      some ⟨block,target,dispatch.nonceStart.setWidth 32,dispatch.count,dispatch.capacity⟩
  | _,_ => none

structure HeavyhashUniform where
  words : Words 2048
  rows : Words 1024

def uniformBytes : Nat := 12288

def uniformOf (m : Square Byte) : HeavyhashUniform where
  words := upTo 64 (Words.zeros 2048) fun j words => upTo 32 words fun k words =>
    words.write (32*j + k)
      ((entry m (2*k) j).setWidth 32 ||| ((entry m (2*k + 1) j).setWidth 32 <<< 16))
  rows := upTo 64 (Words.zeros 1024) fun i rows => upTo 16 rows fun w rows =>
    rows.write (16*i + w)
      ((entry m i (4*w)).setWidth 32 ||| ((entry m i (4*w + 1)).setWidth 32 <<< 8) |||
        ((entry m i (4*w + 2)).setWidth 32 <<< 16) ||| ((entry m i (4*w + 3)).setWidth 32 <<< 24))

def prepareUniform {tries : Nat} (cache : Cache tries) (dispatch : Dispatch) (capacity : Nat) :
    Option (HeavyhashUniform × Cache tries) :=
  match dispatch.header with
  | none => none
  | some header =>
    if capacity < uniformBytes then none
    else (matrixFor cache (wireHeader header)).map fun found => (uniformOf found.1.entries,found.2)

def hashUnder (matrix : Square Byte) (header : Words 20) (nonce : BitVec 64) : Words 8 :=
  let digest := heavyhashCore matrix (encode (header.toList.take 19 ++ [nonce.setWidth 32]))
  upTo 8 (Words.zeros 8) fun i out => out.write i (leWordAt digest i)

def hash {tries : Nat} (cache : Cache tries) (header : Words 20) (nonce : BitVec 64) :
    Option (Words 8 × Cache tries) :=
  let wire := encode (header.toList.take 19 ++ [nonce.setWidth 32])
  (matrixFor cache wire).map fun found => (hashUnder found.1.entries header nonce,found.2)

end VkMiner.Heavyhash
