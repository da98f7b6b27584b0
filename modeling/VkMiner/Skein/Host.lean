import VkMiner.Lib.Cells
import VkMiner.Lib.Halves
import VkMiner.Sha256d.Host
set_option autoImplicit false

/-! Skein-512-512 as the host has it, and what a dispatch of skein is prepared with. -/

namespace VkMiner.Skein
open Loops Halves
open Sha256d (Word Byte Dispatch beBytes encode leWordAt sha256Full)

abbrev Word64 := BitVec 64

def skeinC240 : Word64 := 0x1bd11bdaa9fc1a22

def typeCfg : Word64 := 4

def typeMsg : Word64 := 48

def typeOut : Word64 := 63

/-- `skein512_rot[r][i]`. -/
def skein512Rot (r i : Nat) : Nat :=
  (([[46,36,19,37],[33,27,14,42],[17,49,36,39],[44,9,54,56],[39,30,34,24],[13,50,10,17],
    [25,29,39,43],[8,35,56,22]] : List (List Nat)).getD r []).getD i 0

/-- `skein512_perm[i]`. -/
def skein512Perm (i : Nat) : Nat := [2,1,4,7,6,5,0,3].getD i 0

def le64At (block : List Byte) (i : Nat) : Word64 :=
  (block.getD (i*8) 0).setWidth 64 ||| ((block.getD (i*8 + 1) 0).setWidth 64 <<< 8) |||
    ((block.getD (i*8 + 2) 0).setWidth 64 <<< 16) ||| ((block.getD (i*8 + 3) 0).setWidth 64 <<< 24) |||
    ((block.getD (i*8 + 4) 0).setWidth 64 <<< 32) ||| ((block.getD (i*8 + 5) 0).setWidth 64 <<< 40) |||
    ((block.getD (i*8 + 6) 0).setWidth 64 <<< 48) ||| ((block.getD (i*8 + 7) 0).setWidth 64 <<< 56)

/-- `le64enc_local`. -/
def leBytes64 (v : Word64) : List Byte := (List.range 8).map fun i => (v >>> (8*i)).setWidth 8

/-! ### Threefish -/

def keyWords (key : Cells Word64 8) : Cells Word64 9 :=
  upTo 8 ((Cells.blank 9).write 8 skeinC240) fun i k =>
    let k := k.write i (key.read i)
    k.write 8 (k.read 8 ^^^ key.read i)

def tweakWords (tweak : Cells Word64 2) : Cells Word64 3 :=
  #v[tweak.read 0,tweak.read 1,tweak.read 0 ^^^ tweak.read 1]

def addSubkey (k : Cells Word64 9) (t : Cells Word64 3) (s : Nat) (v : Cells Word64 8) :
    Cells Word64 8 :=
  let v := upTo 8 v fun i v => v.write i (v.read i + k.read ((s + i) % 9))
  let v := v.write 5 (v.read 5 + t.read (s % 3))
  let v := v.write 6 (v.read 6 + t.read ((s + 1) % 3))
  v.write 7 (v.read 7 + BitVec.ofNat 64 s)

def mixRound (d : Nat) (v : Cells Word64 8) : Cells Word64 8 :=
  let f : Cells Word64 8 := upTo 4 (Cells.blank 8) fun i f =>
    let x0 := v.read (2*i)
    let x1 := v.read (2*i + 1)
    let f := f.write (2*i) (x0 + x1)
    f.write (2*i + 1) (rotl x1 (skein512Rot (d % 8) i) ^^^ f.read (2*i))
  upTo 8 v fun i v => v.write i (f.read (skein512Perm i))

def round (k : Cells Word64 9) (t : Cells Word64 3) (d : Nat) (v : Cells Word64 8) : Cells Word64 8 :=
  mixRound d (if d % 4 = 0 then addSubkey k t (d / 4) v else v)

def threefish512 (key : Cells Word64 8) (tweak : Cells Word64 2) (p : Cells Word64 8) :
    Cells Word64 8 :=
  let k := keyWords key
  let t := tweakWords tweak
  let v := upTo 8 (Cells.blank 8) fun i v => v.write i (p.read i)
  addSubkey k t 18 (upTo 72 v (round k t))

/-! ### Blocks -/

def blockWords (block : List Byte) : Cells Word64 8 :=
  upTo 8 (Cells.blank 8) fun i m => m.write i (le64At block i)

def ubiBlock (h : Cells Word64 8) (tweak : Cells Word64 2) (m : Cells Word64 8) : Cells Word64 8 :=
  let c := threefish512 h tweak m
  upTo 8 h fun i h => h.write i (c.read i ^^^ m.read i)

def flag (b : Bool) : Word64 := if b then 1 else 0

def tweakOf (done : Nat) (type : Word64) (first final : Bool) : Cells Word64 2 :=
  #v[BitVec.ofNat 64 done,(type <<< 56) ||| (flag first <<< 62) ||| (flag final <<< 63)]

/-- The loop of `ubi512`, which takes an empty message for one block of zeros. -/
def ubiFrom (h : Cells Word64 8) (data : List Byte) (type : Word64) (done : Nat) (first : Bool) :
    Cells Word64 8 :=
  let take := min (data.length - done) 64
  let block := (data.drop done).take take ++ List.replicate (64 - take) 0
  let h := ubiBlock h (tweakOf (done + take) type first (done + take == data.length)) (blockWords block)
  if done + take < data.length then ubiFrom h data type (done + take) false else h
termination_by data.length - done

def ubi512 (h : Cells Word64 8) (data : List Byte) (type : Word64) : Cells Word64 8 :=
  ubiFrom h data type 0 true

def config : List Byte := [0x53,0x48,0x41,0x33,1,0,0,0] ++ leBytes64 512 ++ List.replicate 16 0

def skein512Iv : Cells Word64 8 :=
  ubi512 (upTo 8 (Cells.blank 8) fun i iv => iv.write i 0) config typeCfg

/-- The chaining value after the first 64 bytes of a longer message. -/
def skein512Midstate (block : List Byte) : Cells Word64 8 :=
  ubiBlock skein512Iv #v[64,(typeMsg <<< 56) ||| (1 <<< 62)] (blockWords block)

def skein512Full (data : List Byte) : List Byte :=
  let h := ubi512 skein512Iv data typeMsg
  let h := ubi512 h (List.replicate 8 0) typeOut
  (List.range 8).flatMap fun i => leBytes64 (h.read i)

/-! ### The algorithm -/

def hash (header : Words 20) (nonce : BitVec 64) : Words 8 :=
  let digest := sha256Full (skein512Full (encode (header.toList.take 19 ++ [nonce.setWidth 32])))
  upTo 8 (Words.zeros 8) fun i out => out.write i (leWordAt digest i)

structure SkeinPush where
  midstate : Words 16
  tail : Words 3
  target : Words 2
  nonceStart : Word
  count : Word
  capacity : Word

def pushBytes : Nat := 96

def prepare (dispatch : Dispatch) (capacity : Nat) : Option SkeinPush :=
  match dispatch.header,dispatch.target with
  | some header,some target =>
    if capacity < pushBytes then none
    else
      let wire := encode (header.toList.take 19)
      let h := skein512Midstate wire
      let midstate := upTo 8 (Words.zeros 16) fun i midstate =>
        (midstate.write (2*i) ((h.read i).setWidth 32)).write (2*i + 1)
          ((h.read i >>> 32).setWidth 32)
      let tail := upTo 3 (Words.zeros 3) fun i tail => tail.write i (leWordAt (wire.drop 64) i)
      let top := ((Words.zeros 2).write 0 (target.read 6)).write 1 (target.read 7)
      some ⟨midstate,tail,top,dispatch.nonceStart.setWidth 32,dispatch.count,dispatch.capacity⟩
  | _,_ => none

end VkMiner.Skein
