import VkMiner.Lib.Cells
import VkMiner.Lib.Halves
import VkMiner.Sha256d.Host
set_option autoImplicit false

/-! BMW-512 as the host has it, and the sums it works out for a header before the nonce is known. -/

namespace VkMiner.Bmw
open Loops Halves Sha256d

abbrev Word64 := BitVec 64

def s0 (x : Word64) : Word64 := (x >>> 1) ^^^ (x <<< 3) ^^^ rotl x 4 ^^^ rotl x 37

def s1 (x : Word64) : Word64 := (x >>> 1) ^^^ (x <<< 2) ^^^ rotl x 13 ^^^ rotl x 43

def s2 (x : Word64) : Word64 := (x >>> 2) ^^^ (x <<< 1) ^^^ rotl x 19 ^^^ rotl x 53

def s3 (x : Word64) : Word64 := (x >>> 2) ^^^ (x <<< 2) ^^^ rotl x 28 ^^^ rotl x 59

def s4 (x : Word64) : Word64 := (x >>> 1) ^^^ x

def s5 (x : Word64) : Word64 := (x >>> 2) ^^^ x

/-- `s_`. -/
def sOf (i : Nat) (x : Word64) : Word64 :=
  match i with
  | 0 => s0 x
  | 1 => s1 x
  | 2 => s2 x
  | 3 => s3 x
  | _ => s4 x

/-- `w_index[i][j]`. -/
def wIndex (i j : Nat) : Nat :=
  (([[5,7,10,13,14],[6,8,11,14,15],[0,7,9,12,15],[0,1,8,10,13],[1,2,9,11,14],[3,2,10,12,15],
    [4,0,3,11,13],[1,4,5,12,14],[2,5,6,13,15],[0,3,6,7,14],[8,1,4,7,15],[8,0,2,5,9],
    [1,3,6,9,10],[2,4,7,10,11],[3,5,8,11,12],[12,4,6,9,13]] : List (List Nat)).getD i []).getD j 0

/-- `w_minus[i][j]`. -/
def wMinus (i j : Nat) : Nat :=
  (([[0,1,0,0,0],[0,1,0,0,1],[0,0,0,1,0],[0,1,0,1,0],[0,0,0,1,1],[0,1,0,1,0],[0,1,1,1,0],
    [0,1,1,1,1],[0,1,1,0,1],[0,1,0,1,0],[0,1,1,1,0],[0,1,1,1,0],[0,0,1,1,0],[0,0,0,0,0],
    [0,1,0,1,1],[0,1,1,1,0]] : List (List Nat)).getD i []).getD j 0

def addSum (m : Cells Word64 16) (i : Nat) : Word64 :=
  let a := i
  let b := (i + 3) % 16
  let c := (i + 10) % 16
  let k := BitVec.ofNat 64 (i + 16) * 0x0555555555555555
  rotl (m.read a) (a + 1) + rotl (m.read b) (b + 1) - rotl (m.read c) (c + 1) + k

def addElement (m h : Cells Word64 16) (i : Nat) : Word64 :=
  addSum m i ^^^ h.read ((i + 7) % 16)

def r (i : Nat) : Nat := [0,5,11,27,32,37,43,53].getD i 0

def f0W (x : Cells Word64 16) (i : Nat) : Word64 :=
  upTo 4 (x.read (wIndex i 0)) fun j w =>
    if wMinus i (j + 1) ≠ 0 then w - x.read (wIndex i (j + 1)) else w + x.read (wIndex i (j + 1))

/-- `M ^ H`. -/
def mixed (m h : Cells Word64 16) : Cells Word64 16 :=
  upTo 16 (Cells.blank 16) fun i x => x.write i (m.read i ^^^ h.read i)

def f0 (q : Cells Word64 32) (h m : Cells Word64 16) : Cells Word64 32 :=
  let x := mixed m h
  upTo 16 q fun i q => q.write i (sOf (i % 5) (f0W x i) + h.read ((i + 1) % 16))

def expand1 (m h : Cells Word64 16) (i : Nat) (q : Cells Word64 32) : Cells Word64 32 :=
  q.write i (upTo 16 (addElement m h (i - 16)) fun j v =>
    v + sOf ((j + 1) % 4) (q.read (i - 16 + j)))

def expand2 (m h : Cells Word64 16) (i : Nat) (q : Cells Word64 32) : Cells Word64 32 :=
  let v := upTo 7 (addElement m h (i - 16)) fun k v =>
    let j := 2*k
    v + (q.read (i - 16 + j) + rotl (q.read (i - 15 + j)) (r (j / 2 + 1)))
  q.write i (v + s4 (q.read (i - 2)) + s5 (q.read (i - 1)))

def f1 (m h : Cells Word64 16) (q : Cells Word64 32) : Cells Word64 32 :=
  let q := upTo 2 q fun i => expand1 m h (16 + i)
  upTo 14 q fun i => expand2 m h (18 + i)

/-- `out[i] = t1 + ( xl ^ q[c] ^ q[i] )`. -/
def foldLow (xl : Word64) (q : Cells Word64 32) (out : Cells Word64 16) (i : Nat) (t : Word64) :
    Cells Word64 16 :=
  out.write i (t + (xl ^^^ q.read (24 + i) ^^^ q.read i))

/-- `out[i] = rotl( out[k], n ) + ( xh ^ q[c] ^ m[i] ) + t`. -/
def foldHigh (xh : Word64) (q : Cells Word64 32) (m out : Cells Word64 16) (i k n : Nat)
    (t : Word64) : Cells Word64 16 :=
  out.write i (rotl (out.read k) n + (xh ^^^ q.read (16 + i) ^^^ m.read i) + t)

def f2 (out : Cells Word64 16) (q : Cells Word64 32) (m : Cells Word64 16) : Cells Word64 16 :=
  let xl := q.read 16 ^^^ q.read 17 ^^^ q.read 18 ^^^ q.read 19 ^^^ q.read 20 ^^^ q.read 21 ^^^
    q.read 22 ^^^ q.read 23
  let xh := xl ^^^ q.read 24 ^^^ q.read 25 ^^^ q.read 26 ^^^ q.read 27 ^^^ q.read 28 ^^^
    q.read 29 ^^^ q.read 30 ^^^ q.read 31
  let out := foldLow xl q out 0 ((xh <<< 5) ^^^ (q.read 16 >>> 5) ^^^ m.read 0)
  let out := foldLow xl q out 1 ((xh >>> 7) ^^^ (q.read 17 <<< 8) ^^^ m.read 1)
  let out := foldLow xl q out 2 ((xh >>> 5) ^^^ (q.read 18 <<< 5) ^^^ m.read 2)
  let out := foldLow xl q out 3 ((xh >>> 1) ^^^ (q.read 19 <<< 5) ^^^ m.read 3)
  let out := foldLow xl q out 4 ((xh >>> 3) ^^^ q.read 20 ^^^ m.read 4)
  let out := foldLow xl q out 5 ((xh <<< 6) ^^^ (q.read 21 >>> 6) ^^^ m.read 5)
  let out := foldLow xl q out 6 ((xh >>> 4) ^^^ (q.read 22 <<< 6) ^^^ m.read 6)
  let out := foldLow xl q out 7 ((xh >>> 11) ^^^ (q.read 23 <<< 2) ^^^ m.read 7)
  let out := foldHigh xh q m out 8 4 9 ((xl <<< 8) ^^^ q.read 23 ^^^ q.read 8)
  let out := foldHigh xh q m out 9 5 10 ((xl >>> 6) ^^^ q.read 16 ^^^ q.read 9)
  let out := foldHigh xh q m out 10 6 11 ((xl <<< 6) ^^^ q.read 17 ^^^ q.read 10)
  let out := foldHigh xh q m out 11 7 12 ((xl <<< 4) ^^^ q.read 18 ^^^ q.read 11)
  let out := foldHigh xh q m out 12 0 13 ((xl >>> 3) ^^^ q.read 19 ^^^ q.read 12)
  let out := foldHigh xh q m out 13 1 14 ((xl >>> 4) ^^^ q.read 20 ^^^ q.read 13)
  let out := foldHigh xh q m out 14 2 15 ((xl >>> 7) ^^^ q.read 21 ^^^ q.read 14)
  foldHigh xh q m out 15 3 16 ((xl >>> 2) ^^^ q.read 22 ^^^ q.read 15)

/-- `compress`. The array `out` may be `h`, which is not read once `out` is written. -/
def compress (out h m : Cells Word64 16) : Cells Word64 16 :=
  f2 out (f1 m h (f0 (Cells.blank 32) h m)) m

def dec64le (p : List Byte) : Word64 :=
  upTo 8 0 fun k v => (v <<< 8) ||| (p.getD (7 - k) 0).setWidth 64

def blockWords (block : List Byte) : Cells Word64 16 :=
  upTo 16 (Cells.blank 16) fun i m => m.write i (dec64le (block.drop (8*i)))

/-- The bytes 0x80, 0x81, .. 0xff, read as big-endian words. -/
def iv : Cells Word64 16 :=
  upTo 16 (Cells.blank 16) fun i h =>
    h.write i (0x8081828384858687 + BitVec.ofNat 64 i * 0x0808080808080808)

def qReadsNonce (i : Nat) : Bool :=
  decide (16 ≤ i) || (List.range 5).any fun j => wIndex i j == 9

def addReadsNonce (i : Nat) : Bool := i == 9 || (i + 3) % 16 == 9 || (i + 10) % 16 == 9

def headerBlock (header : List Byte) : List Byte :=
  header.take 80 ++ 0x80 :: List.replicate 39 0 ++ [0x80,0x02] ++ List.replicate 6 0

/-- The sums of `f1` that do not read the nonce. -/
def sum1 (m h : Cells Word64 16) (q : Cells Word64 32) (i : Nat) : Word64 :=
  upTo 16 (if addReadsNonce (i - 16) then 0 else addElement m h (i - 16)) fun j v =>
    if qReadsNonce (i - 16 + j) then v else v + sOf ((j + 1) % 4) (q.read (i - 16 + j))

def sum2 (m h : Cells Word64 16) (q : Cells Word64 32) (i : Nat) : Word64 :=
  upTo 7 (if addReadsNonce (i - 16) then 0 else addElement m h (i - 16)) fun k v =>
    let j := 2*k
    let v := if qReadsNonce (i - 16 + j) then v else v + q.read (i - 16 + j)
    if qReadsNonce (i - 15 + j) then v else v + rotl (q.read (i - 15 + j)) (r (j / 2 + 1))

def bmw51280Precompute (header : List Byte) : Cells Word64 35 :=
  let m := blockWords (headerBlock header)
  let q := f0 (Cells.blank 32) iv m
  let x := (mixed m iv).write 9 0
  let out := upTo 16 (Cells.blank 35) fun i out =>
    out.write i (if qReadsNonce i then f0W x i else q.read i)
  let m := m.write 9 0
  let out := upTo 16 out fun c out =>
    let i := 16 + c
    out.write i (if i < 18 then sum1 m iv q i else sum2 m iv q i)
  ((out.write 32 (addSum m 6)).write 33 (addSum m 9)).write 34 (addSum m 15)

def compressBytes (h : Cells Word64 16) (block : List Byte) : Cells Word64 16 :=
  compress h h (blockWords block)

def wholeBlocks (h : Cells Word64 16) (msg : List Byte) : Cells Word64 16 × List Byte :=
  if 128 ≤ msg.length then wholeBlocks (compressBytes h msg) (msg.drop 128) else (h,msg)
termination_by msg.length

def leBytes64 (x : Word64) : List Byte := (List.range 8).map fun k => (x >>> (8*k)).setWidth 8

def padded (h : Cells Word64 16) (rest : List Byte) : Cells Word64 16 × List Byte :=
  let block := rest ++ 0x80 :: List.replicate (127 - rest.length) 0
  if 119 < rest.length then (compressBytes h block,List.replicate 128 0) else (h,block)

def bmw512Full (data : List Byte) : List Byte :=
  let (h,rest) := wholeBlocks iv data
  let (h,block) := padded h rest
  let h := compressBytes h (block.take 120 ++ leBytes64 (BitVec.ofNat 64 data.length * 8))
  let fin := upTo 16 (Cells.blank 16) fun i fin =>
    fin.write i (0xaaaaaaaaaaaaaaa0 + BitVec.ofNat 64 i)
  let d := compress (Cells.blank 16) fin h
  (List.range 8).flatMap fun i => leBytes64 (d.read (8 + i))

/-- `hash`, which is what a nonce is checked with: the first 32 bytes of the digest. -/
def hash (header : Words 20) (nonce : BitVec 64) : Words 8 :=
  let digest := bmw512Full (encode (header.toList.take 19 ++ [nonce.setWidth 32]))
  upTo 8 (Words.zeros 8) fun i out => out.write i (leWordAt digest i)

structure Bmw512Push where
  header : Words 19
  target : Words 2
  nonceStart : Word
  count : Word
  capacity : Word

def pushBytes : Nat := 96

def prepare (dispatch : Dispatch) (capacity : Nat) : Option Bmw512Push :=
  match dispatch.header,dispatch.target with
  | some header,some target =>
    if capacity < pushBytes then none
    else
      let words := upTo 19 (Words.zeros 19) fun i words =>
        words.write i (leWordAt (beBytes (header.read i)) 0)
      some ⟨words,#v[target.read 6,target.read 7],dispatch.nonceStart.setWidth 32,dispatch.count,
        dispatch.capacity⟩
  | _,_ => none

/-- The uniform block, an array of `uvec4`. -/
structure Bmw512Uniform where
  words : Vector (Words 4) 18

def uniformBytes : Nat := 288

/-- Words of 64 bits as an array of `uvec4`, two to an entry, the low half first. -/
def vectors (words : Cells Word64 35) : Vector (Words 4) 18 :=
  Vector.ofFn fun k =>
    let lo := words.read (2*k)
    let hi := words.read (2*k + 1)
    #v[lo.setWidth 32,(lo >>> 32).setWidth 32,hi.setWidth 32,(hi >>> 32).setWidth 32]

def prepareUniform (dispatch : Dispatch) (capacity : Nat) : Option Bmw512Uniform :=
  match dispatch.header with
  | some header =>
    if capacity < uniformBytes then none
    else
      let data := encode (header.toList.take 19) ++ List.replicate 4 0
      some ⟨vectors (bmw51280Precompute data)⟩
  | none => none

end VkMiner.Bmw
