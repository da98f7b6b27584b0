import VkMiner.Sha256d.Digest
set_option autoImplicit false

/-! The RIPEMD-160 of the host: two lines of eighty steps over the same block. -/

namespace VkMiner.Ripemd160
open Loops
open Sha256d (Word Byte leWordAt leBytes)

def rotl32 (x : Word) (n : Nat) : Word := (x <<< n) ||| (x >>> (32 - n))

def kl (round : Nat) : Word := [0x00000000,0x5a827999,0x6ed9eba1,0x8f1bbcdc,0xa953fd4e].getD round 0

def kr (round : Nat) : Word := [0x50a28be6,0x5c4dd124,0x6d703ef3,0x7a6d76e9,0x00000000].getD round 0

def rl : List Nat :=
  [0,1,2,3,4,5,6,7,8,9,10,11,12,13,14,15,7,4,13,1,10,6,15,3,12,0,9,5,2,14,11,8,
    3,10,14,4,9,15,8,1,2,7,0,6,13,11,5,12,1,9,11,10,0,8,12,4,13,3,7,15,14,5,6,2,
    4,0,5,9,7,12,2,10,14,1,3,8,11,6,15,13]

def rr : List Nat :=
  [5,14,7,0,9,2,11,4,13,6,15,8,1,10,3,12,6,11,3,7,0,13,5,10,14,15,8,12,4,9,1,2,
    15,5,1,3,7,14,6,9,11,8,12,2,10,0,4,13,8,6,4,1,3,11,15,0,5,12,2,13,9,7,10,14,
    12,15,10,4,1,5,8,7,6,2,13,14,0,3,9,11]

def sl : List Nat :=
  [11,14,15,12,5,8,7,9,11,13,14,15,6,7,9,8,7,6,8,13,11,9,7,15,7,12,15,9,11,7,13,12,
    11,13,6,7,14,9,13,15,14,8,13,6,5,12,7,5,11,12,14,15,14,15,9,8,9,14,5,6,8,6,5,12,
    9,15,5,11,6,8,13,12,5,12,13,14,11,8,5,6]

def sr : List Nat :=
  [8,9,9,11,13,15,15,5,7,7,8,11,14,14,12,6,9,13,15,7,12,8,9,11,7,7,12,7,6,15,13,11,
    9,7,15,11,8,6,6,14,12,13,5,14,13,13,7,5,15,5,8,11,14,14,6,14,6,9,12,9,12,5,15,8,
    8,5,12,9,12,5,14,6,8,13,6,5,15,13,11,11]

def f : Nat → Word → Word → Word → Word
  | 0,x,y,z => x ^^^ y ^^^ z
  | 1,x,y,z => (x &&& y) ||| (~~~x &&& z)
  | 2,x,y,z => (x ||| ~~~y) ^^^ z
  | 3,x,y,z => (x &&& z) ||| (y &&& ~~~z)
  | _,x,y,z => x ^^^ (y ||| ~~~z)

structure Line where
  a : Word
  b : Word
  c : Word
  d : Word
  e : Word
  deriving DecidableEq

namespace Line

def step (g : Word → Word → Word → Word) (x k : Word) (s : Nat) (v : Line) : Line :=
  let t := v.a + g v.b v.c v.d + x + k
  let t := rotl32 t s + v.e
  ⟨v.e,t,v.b,rotl32 v.c 10,v.d⟩

def load (h : Words 5) : Line := ⟨h.read 0,h.read 1,h.read 2,h.read 3,h.read 4⟩

end Line

def leftStep (x : Words 16) (j : Nat) (v : Line) : Line :=
  v.step (f (j / 16)) (x.read (rl.getD j 0)) (kl (j / 16)) (sl.getD j 0)

def rightStep (x : Words 16) (j : Nat) (v : Line) : Line :=
  v.step (f (4 - j / 16)) (x.read (rr.getD j 0)) (kr (j / 16)) (sr.getD j 0)

def combine (h : Words 5) (l r : Line) : Words 5 :=
  #v[h.read 1 + l.c + r.d,h.read 2 + l.d + r.e,h.read 3 + l.e + r.a,h.read 4 + l.a + r.b,
    h.read 0 + l.b + r.c]

def compressWords (h : Words 5) (x : Words 16) : Words 5 :=
  combine h (upTo 80 (.load h) (leftStep x)) (upTo 80 (.load h) (rightStep x))

def ripemd160Compress (h : Words 5) (block : List Byte) : Words 5 :=
  compressWords h (upTo 16 (Words.zeros 16) fun j x => x.write j (leWordAt block j))

def ripemd160Iv : Words 5 := #v[0x67452301,0xefcdab89,0x98badcfe,0x10325476,0xc3d2e1f0]

def wholeBlocks (h : Words 5) (p : List Byte) : Words 5 × List Byte :=
  if 64 ≤ p.length then wholeBlocks (ripemd160Compress h (p.take 64)) (p.drop 64) else (h,p)
termination_by p.length

def ripemd160Full (data : List Byte) : List Byte :=
  let (h,p) := wholeBlocks ripemd160Iv data
  let block := p ++ 0x80 :: List.replicate (63 - p.length) 0
  let h := if 56 ≤ p.length then ripemd160Compress h block else h
  let block := if 56 ≤ p.length then List.replicate 64 0 else block
  let block := block.take 56 ++ leBytes (BitVec.ofNat 32 (data.length <<< 3)) ++
    leBytes (BitVec.ofNat 32 (data.length >>> 29))
  (List.range 5).flatMap fun i => leBytes ((ripemd160Compress h block).read i)

/-! ### A message of eight words -/

def paddedWords (ws : List Word) : List Word := ws ++ [0x80,0,0,0,0,0,0x100,0]

theorem leBytes_length (ws : List Word) : (ws.flatMap leBytes).length = 4*ws.length := by
  induction ws with
  | nil => rfl
  | cons x ws ih =>
    rw [List.flatMap_cons,List.length_append,ih,List.length_cons]
    have hx : (leBytes x).length = 4 := rfl
    omega

theorem ripemd160Full_eight {ws : List Word} (h : ws.length = 8) :
    ripemd160Full (ws.flatMap leBytes) =
      (compressWords ripemd160Iv (Words.ofList (paddedWords ws))).toList.flatMap leBytes := by
  have hlen : (ws.flatMap leBytes).length = 32 := by rw [leBytes_length,h]
  have hwhole : wholeBlocks ripemd160Iv (ws.flatMap leBytes) = (ripemd160Iv,ws.flatMap leBytes) := by
    rw [wholeBlocks,if_neg (by omega)]
  have hblock : (ws.flatMap leBytes ++ (0x80 : Byte) :: List.replicate 31 0).take 56 =
      (ws ++ [0x80,0,0,0,0,0]).flatMap leBytes := by
    have hpad : (0x80 : Byte) :: List.replicate 31 0 =
        [0x80,0,0,0,0,0].flatMap leBytes ++ List.replicate 8 0 := rfl
    rw [hpad,← List.append_assoc,← List.flatMap_append]
    refine List.take_left' ?_
    rw [leBytes_length,List.length_append,h]
    rfl
  have hbits : leBytes (BitVec.ofNat 32 (32 <<< 3)) ++ leBytes (BitVec.ofNat 32 (32 >>> 29)) =
      [0x100,0].flatMap leBytes := rfl
  have hwords : (upTo 16 (Words.zeros 16) fun j x =>
      x.write j (leWordAt ((paddedWords ws).flatMap leBytes) j)) = Words.ofList (paddedWords ws) := by
    refine Words.ext _ _ fun j hj => ?_
    rw [Words.read_fill _ _ (Nat.le_refl 16) hj,Sha256d.leWordAt_leBytes]
    exact (Words.read_ofFn (fun i : Fin 16 => (paddedWords ws).getD i 0) hj).symm
  have hflat (s : Words 5) : ((List.range 5).flatMap fun i => leBytes (s.read i)) =
      s.toList.flatMap leBytes := by
    rw [Sha256d.words_toList,List.flatMap_map]
  simp only [ripemd160Full,hwhole,hlen]
  rw [if_neg (by decide),if_neg (by decide),hblock,List.append_assoc,hbits,← List.flatMap_append,
    List.append_assoc,hflat,ripemd160Compress]
  exact congrArg (fun x => (compressWords ripemd160Iv x).toList.flatMap leBytes) hwords

end VkMiner.Ripemd160
