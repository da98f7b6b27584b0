import VkMiner.Heavyhash.Lanes
import VkMiner.Progpow.Epochs
set_option autoImplicit false

/-! The items of the dataset: the light cache that they are made from, the vendored library that
makes them on the host, and `dag.comp`, which makes them on the device. -/

namespace VkMiner.Ethash
open Loops Cells
open Sha256d (Word)
open Heavyhash (Word64)

/-- The words of a `hash512`, which is 64 bytes of either file. -/
abbrev Item := Words 16

def fnvPrime : Word := 0x01000193

def fnv1 (u v : Word) : Word := (u * fnvPrime) ^^^ v

/-! ### The vendored Keccak -/

def rol (x : Word64) (s : Nat) : Word64 := (x <<< s) ||| (x >>> (64 - s))

def roundConstants : Cells Word64 24 := Vector.ofFn fun i =>
  [0x0000000000000001,0x0000000000008082,0x800000000000808a,0x8000000080008000,
    0x000000000000808b,0x0000000080000001,0x8000000080008081,0x8000000000008009,
    0x000000000000008a,0x0000000000000088,0x0000000080008009,0x000000008000000a,
    0x000000008000808b,0x800000000000008b,0x8000000000008089,0x8000000000008003,
    0x8000000000008002,0x8000000000000080,0x000000000000800a,0x800000008000000a,
    0x8000000080008081,0x8000000000008080,0x0000000080000001,0x8000000080008008].getD i 0

/-- One half of a pass of `ethash_keccakf1600`: the lanes `Axx` into `Exx`, or these back. -/
def halfPass (a : Cells Word64 25) (rc : Word64) : Cells Word64 25 :=
  let ba := a.read 0 ^^^ a.read 5 ^^^ a.read 10 ^^^ a.read 15 ^^^ a.read 20
  let be := a.read 1 ^^^ a.read 6 ^^^ a.read 11 ^^^ a.read 16 ^^^ a.read 21
  let bi := a.read 2 ^^^ a.read 7 ^^^ a.read 12 ^^^ a.read 17 ^^^ a.read 22
  let bo := a.read 3 ^^^ a.read 8 ^^^ a.read 13 ^^^ a.read 18 ^^^ a.read 23
  let bu := a.read 4 ^^^ a.read 9 ^^^ a.read 14 ^^^ a.read 19 ^^^ a.read 24
  let da := bu ^^^ rol be 1
  let de := ba ^^^ rol bi 1
  let di := be ^^^ rol bo 1
  let dO := bi ^^^ rol bu 1
  let du := bo ^^^ rol ba 1
  let row (ba be bi bo bu : Word64) : List Word64 :=
    [ba ^^^ (~~~be &&& bi),be ^^^ (~~~bi &&& bo),bi ^^^ (~~~bo &&& bu),bo ^^^ (~~~bu &&& ba),
      bu ^^^ (~~~ba &&& be)]
  let eb := row (a.read 0 ^^^ da) (rol (a.read 6 ^^^ de) 44) (rol (a.read 12 ^^^ di) 43)
    (rol (a.read 18 ^^^ dO) 21) (rol (a.read 24 ^^^ du) 14)
  let eg := row (rol (a.read 3 ^^^ dO) 28) (rol (a.read 9 ^^^ du) 20) (rol (a.read 10 ^^^ da) 3)
    (rol (a.read 16 ^^^ de) 45) (rol (a.read 22 ^^^ di) 61)
  let ek := row (rol (a.read 1 ^^^ de) 1) (rol (a.read 7 ^^^ di) 6) (rol (a.read 13 ^^^ dO) 25)
    (rol (a.read 19 ^^^ du) 8) (rol (a.read 20 ^^^ da) 18)
  let em := row (rol (a.read 4 ^^^ du) 27) (rol (a.read 5 ^^^ da) 36) (rol (a.read 11 ^^^ de) 10)
    (rol (a.read 17 ^^^ di) 15) (rol (a.read 23 ^^^ dO) 56)
  let es := row (rol (a.read 2 ^^^ di) 62) (rol (a.read 8 ^^^ dO) 55) (rol (a.read 14 ^^^ du) 39)
    (rol (a.read 15 ^^^ da) 41) (rol (a.read 21 ^^^ de) 2)
  let e : Cells Word64 25 := Vector.ofFn fun i => (eb ++ eg ++ ek ++ em ++ es).getD i 0
  e.write 0 (e.read 0 ^^^ rc)

def keccakf1600 (state : Cells Word64 25) : Cells Word64 25 :=
  upTo 12 state fun i a =>
    halfPass (halfPass a (roundConstants.read (2*i))) (roundConstants.read (2*i + 1))

def loadLe (m : Item) (i : Nat) : Word64 :=
  (m.read (2*i)).setWidth 64 ||| ((m.read (2*i + 1)).setWidth 64 <<< 32)

/-- `ethash_keccak512_64`: 64 bytes are whole words, and less than a block of 72. -/
def keccak512 (m : Item) : Item :=
  let state := upTo 8 (blank 25) fun i state => state.write i (state.read i ^^^ loadLe m i)
  let state := state.write 8 (state.read 8 ^^^ 0x01)
  let state := state.write 8 (state.read 8 ^^^ 0x8000000000000000)
  let state := keccakf1600 state
  upTo 8 (Words.zeros 16) fun i out =>
    (out.write (2*i) ((state.read i).setWidth 32)).write (2*i + 1)
      ((state.read i >>> 32).setWidth 32)

/-! ### An item on the host -/

def fullDatasetItemParents : Nat := 512

structure EpochContext where
  lightCacheNumItems : Int
  lightCache : Nat → Item

def remainder (a b : Int) : Nat := (a.tmod b).toNat

def itemState (ctx : EpochContext) (index : Nat) : Item :=
  let mix := ctx.lightCache (remainder index ctx.lightCacheNumItems)
  keccak512 (mix.write 0 (mix.read 0 ^^^ BitVec.ofNat 32 index))

def update (ctx : EpochContext) (seed : Word) (round : Nat) (mix : Item) : Item :=
  let t := fnv1 (seed ^^^ BitVec.ofNat 32 round) (mix.read (round % 16))
  let parent := ctx.lightCache (remainder t.toNat ctx.lightCacheNumItems)
  upTo 16 (Words.zeros 16) fun i r => r.write i (fnv1 (mix.read i) (parent.read i))

def calculateDatasetItem512 (ctx : EpochContext) (index : Nat) : Item :=
  keccak512 (upTo fullDatasetItemParents (itemState ctx index)
    (update ctx (BitVec.ofNat 32 index)))

end VkMiner.Ethash

namespace VkMiner.Progpow
open Loops
open Ethash (Item EpochContext calculateDatasetItem512)

def datasetItem (epochs : Epochs) (cacheFor : Option (Nat → Item)) (index : Nat) : Option Item :=
  if dagItems epochs.full ≤ index then none
  else cacheFor.map fun cache =>
    calculateDatasetItem512 ⟨asInt (lightCacheItems epochs.light),cache⟩ index

/-! ### An item on the device -/

structure DagPush where
  count : Word
  first : Word
  slot : Word
  cacheItems : Word

def setupPush (f : Fork) (key first slot count : Nat) : DagPush :=
  ⟨BitVec.ofNat 32 count,BitVec.ofNat 32 first,BitVec.ofNat 32 slot,
    (lightCacheItems (epochsFor f (UInt32.ofNat key)).light).toBitVec⟩

namespace Dag
open Cells
open Heavyhash.Glsl (KLane)

def kItemWords : Word := 16
def kParents : Nat := 512

def fnv1 (u v : Word) : Word := (u * 0x01000193) ^^^ v

section
variable {L : Type} [Inhabited L] (B : KLane L)

def sha3Keccakf (a : Cells L 25) : Cells L 25 := upTo 24 a fun r a => Heavyhash.Glsl.hhRound B a r

def keccak512 (m : Words 16) : Words 16 :=
  let a := upTo 8 (blank 25) fun i a => a.write i (B.klane (m.read (2*i)) (m.read (2*i + 1)))
  let a := a.write 8 (B.klane 0x00000001 0x80000000)
  let a := upTo 16 a fun i a => a.write (9 + i) (B.klane 0 0)
  let a := sha3Keccakf B a
  upTo 8 m fun i m => (m.write (2*i) (B.klo (a.read i))).write (2*i + 1) (B.khi (a.read i))

/-- One parent after the other. `cache` is the second binding. -/
def parents (push : DagPush) (cache : Nat → Word) (index : Word) (mix : Words 16) : Words 16 :=
  upTo kParents mix fun r mix =>
    let t := fnv1 (index ^^^ BitVec.ofNat 32 r) (mix.read (r % 16))
    let parent := (t % push.cacheItems) * kItemWords
    upTo 16 mix fun j mix =>
      mix.write j (fnv1 (mix.read j) (cache (parent + BitVec.ofNat 32 j).toNat))

def main (push : DagPush) (cache : Nat → Word) (i : Word) : List (Nat × Word) :=
  if push.count ≤ i then []
  else
    let index := push.first + i
    let base := (index % push.cacheItems) * kItemWords
    let mix := upTo 16 (Words.zeros 16) fun j mix =>
      mix.write j (cache (base + BitVec.ofNat 32 j).toNat)
    let mix := mix.write 0 (mix.read 0 ^^^ index)
    let mix := keccak512 B mix
    let mix := parents push cache index mix
    let mix := keccak512 B mix
    let outBase := (push.slot + i) * kItemWords
    (List.range 16).map fun j => ((outBase + BitVec.ofNat 32 j).toNat,mix.read j)

end

end Dag
end VkMiner.Progpow
