import VkMiner.Sha256d.Kernel
import VkMiner.Skein.Host
set_option autoImplicit false

/-! Skein-512 as the device has it, over any of its three kinds of lane, and the skein kernel. -/

namespace VkMiner.Skein.Glsl
open Loops Halves Sha256
open Progpow (Candidate)
open Progpow.Glsl (bswap32)
open Sha256d (Word)
open Sha256d.Glsl (sha256Iv assign)

structure TLane (L : Type) where
  tlane : Word → Word → L
  tlo : L → Word
  thi : L → Word
  txor : L → L → L
  tadd : L → L → L
  trotl : L → Nat → L

def int64 : TLane Word64 where
  tlane lo hi := lo.setWidth 64 ||| (hi.setWidth 64 <<< 32)
  tlo x := x.setWidth 32
  thi x := (x >>> 32).setWidth 32
  txor a b := a ^^^ b
  tadd a b := a + b
  trotl x n := (x <<< n) ||| (x >>> (64 - n))

def pairs : TLane Halves where
  tlane lo hi := ⟨lo,hi⟩
  tlo x := x.x
  thi x := x.y
  txor a b := ⟨a.x ^^^ b.x,a.y ^^^ b.y⟩
  tadd a b := ⟨a.x + b.x,a.y + b.y + carry a.x b.x⟩
  trotl x n :=
    let v := if 32 ≤ n then ⟨x.y,x.x⟩ else x
    let s := n % 32
    if s = 0 then v else ⟨(v.x <<< s) ||| (v.y >>> (32 - s)),(v.y <<< s) ||| (v.x >>> (32 - s))⟩

/-- `VKMINER_SKEIN_WIDE_ADD`: pairs of halves, packed for the adds alone. -/
def wideAdd : TLane Halves := { pairs with tadd := fun a b => split (a.join + b.join) }

def kSkeinT1Msg : Word := 0x30000000

def kSkeinT1Out : Word := 0x3f000000

def kSkeinT1First : Word := 0x40000000

def kSkeinT1Final : Word := 0x80000000

section
variable {L : Type} [Inhabited L] (B : TLane L)

def mix (i j r : Nat) (p : Cells L 8) : Cells L 8 :=
  let p := p.write i (B.tadd (p.read i) (p.read j))
  p.write j (B.txor (B.trotl (p.read j) r) (p.read i))

def inject (k : Cells L 9) (t : Cells L 3) (s : Nat) (p : Cells L 8) : Cells L 8 :=
  let p := p.write 0 (B.tadd (p.read 0) (k.read ((s + 0) % 9)))
  let p := p.write 1 (B.tadd (p.read 1) (k.read ((s + 1) % 9)))
  let p := p.write 2 (B.tadd (p.read 2) (k.read ((s + 2) % 9)))
  let p := p.write 3 (B.tadd (p.read 3) (k.read ((s + 3) % 9)))
  let p := p.write 4 (B.tadd (p.read 4) (k.read ((s + 4) % 9)))
  let p := p.write 5 (B.tadd (p.read 5) (B.tadd (k.read ((s + 5) % 9)) (t.read (s % 3))))
  let p := p.write 6 (B.tadd (p.read 6) (B.tadd (k.read ((s + 6) % 9)) (t.read ((s + 1) % 3))))
  p.write 7 (B.tadd (p.read 7) (B.tadd (k.read ((s + 7) % 9)) (B.tlane (BitVec.ofNat 32 s) 0)))

abbrev Rotations := Nat → Nat → Nat

/-- The four rounds of `SKEIN_ROUNDS4`, which name each word anew instead of moving it. -/
def first (r : Rotations) (p : Cells L 8) : Cells L 8 :=
  mix B 6 7 (r 0 3) (mix B 4 5 (r 0 2) (mix B 2 3 (r 0 1) (mix B 0 1 (r 0 0) p)))

def second (r : Rotations) (p : Cells L 8) : Cells L 8 :=
  mix B 0 3 (r 1 3) (mix B 6 5 (r 1 2) (mix B 4 7 (r 1 1) (mix B 2 1 (r 1 0) p)))

def third (r : Rotations) (p : Cells L 8) : Cells L 8 :=
  mix B 2 7 (r 2 3) (mix B 0 5 (r 2 2) (mix B 6 3 (r 2 1) (mix B 4 1 (r 2 0) p)))

def fourth (r : Rotations) (p : Cells L 8) : Cells L 8 :=
  mix B 4 3 (r 3 3) (mix B 2 5 (r 3 2) (mix B 0 7 (r 3 1) (mix B 6 1 (r 3 0) p)))

def rounds4 (k : Cells L 9) (t : Cells L 3) (s : Nat) (r : Rotations) (p : Cells L 8) : Cells L 8 :=
  fourth B r (third B r (second B r (first B r (inject B k t s p))))

def evenRotations : Rotations := fun i j =>
  (([[46,36,19,37],[33,27,14,42],[17,49,36,39],[44,9,54,56]] : List (List Nat)).getD i []).getD j 0

def oddRotations : Rotations := fun i j =>
  (([[39,30,34,24],[13,50,10,17],[25,29,39,43],[8,35,56,22]] : List (List Nat)).getD i []).getD j 0

def even (k : Cells L 9) (t : Cells L 3) (s : Nat) (p : Cells L 8) : Cells L 8 :=
  rounds4 B k t s evenRotations p

def odd (k : Cells L 9) (t : Cells L 3) (s : Nat) (p : Cells L 8) : Cells L 8 :=
  rounds4 B k t s oddRotations p

def keyWords (h : Cells L 8) : Cells L 9 :=
  upTo 8 ((Cells.blank 9).write 8 (B.tlane 0xa9fc1a22 0x1bd11bda)) fun i k =>
    let k := k.write i (h.read i)
    k.write 8 (B.txor (k.read 8) (h.read i))

def tweakWords (t0 t1 : L) : Cells L 3 :=
  (((Cells.blank 3).write 0 t0).write 1 t1).write 2 (B.txor t0 t1)

def rounds (k : Cells L 9) (t : Cells L 3) (p : Cells L 8) : Cells L 8 :=
  let p := odd B k t 1 (even B k t 0 p)
  let p := odd B k t 3 (even B k t 2 p)
  let p := odd B k t 5 (even B k t 4 p)
  let p := odd B k t 7 (even B k t 6 p)
  let p := odd B k t 9 (even B k t 8 p)
  let p := odd B k t 11 (even B k t 10 p)
  let p := odd B k t 13 (even B k t 12 p)
  let p := odd B k t 15 (even B k t 14 p)
  let p := odd B k t 17 (even B k t 16 p)
  inject B k t 18 p

def skein512Ubi (h m : Cells L 8) (t0 t1 : L) : Cells L 8 :=
  let p := rounds B (keyWords B h) (tweakWords B t0 t1) m
  upTo 8 h fun i h => h.write i (B.txor (p.read i) (m.read i))

/-! ### SHA-256, whose round macro is that of sha256d -/

def round8 (w : Words 64) (i : Nat) (v : Vars) : Vars := Sha256d.Glsl.sha256dRound8 w i v

def sched8 (w : Words 64) (i : Nat) : Words 64 := Sha256d.Glsl.sha256dSched8 w i

def skeinSha256Block (state : Words 8) (w : Words 64) : Words 8 × Words 64 :=
  let w := sched8 (sched8 w 16) 24
  let w := sched8 (sched8 w 32) 40
  let w := sched8 (sched8 w 48) 56
  let v := round8 w 8 (round8 w 0 (.load state))
  let v := round8 w 24 (round8 w 16 v)
  let v := round8 w 40 (round8 w 32 v)
  let v := round8 w 56 (round8 w 48 v)
  (v.feed state,w)

/-! ### One nonce -/

def skeinOf (push : SkeinPush) (nonce : Word) : Cells L 8 :=
  let h : Cells L 8 := upTo 8 (Cells.blank 8) fun i h =>
    h.write i (B.tlane (push.midstate.read (2*i)) (push.midstate.read (2*i + 1)))
  let m := (Cells.blank 8).write 0 (B.tlane (push.tail.read 0) (push.tail.read 1))
  let m := m.write 1 (B.tlane (push.tail.read 2) (bswap32 nonce))
  let m := upTo 6 m fun i m => m.write (2 + i) (B.tlane 0 0)
  let h := skein512Ubi B h m (B.tlane 80 0) (B.tlane 0 (kSkeinT1Msg ||| kSkeinT1Final))
  let m := upTo 8 m fun i m => m.write i (B.tlane 0 0)
  skein512Ubi B h m (B.tlane 8 0) (B.tlane 0 (kSkeinT1Out ||| kSkeinT1First ||| kSkeinT1Final))

def messageWords (garbage : Words 64) (h : Cells L 8) : Words 64 :=
  upTo 8 garbage fun i w =>
    (w.write (2*i) (bswap32 (B.tlo (h.read i)))).write (2*i + 1) (bswap32 (B.thi (h.read i)))

def shaOf (garbage : Words 64) (h : Cells L 8) : Words 8 :=
  let (state,w) := skeinSha256Block sha256Iv (messageWords B garbage h)
  let w := assign w 0 [0x80000000,0,0,0,0,0,0,0,0,0,0,0,0,0,0,512]
  (skeinSha256Block state w).1

/-- `skein_search`, with what it emits. `garbage` is what the array of words holds before anything
is written to it. -/
def skeinSearch (garbage : Words 64) (push : SkeinPush) (nonce : Word) : Option Candidate :=
  let state := shaOf B garbage (skeinOf B push nonce)
  let top := bswap32 (state.read 7)
  let next := bswap32 (state.read 6)
  if push.target.read 1 < top then none
  else if top = push.target.read 1 ∧ push.target.read 0 < next then none
  else some ⟨nonce,0,upTo 8 (Words.zeros 8) fun i hash => hash.write i (bswap32 (state.read i))⟩

end

/-- The three modules over this text, by what `TLANE` is in them. -/
abbrev Module := Kind

def Module.lanes : (module : Module) → TLane module.Lane
  | .wide => int64
  | .wideAdd => wideAdd
  | .pairs => pairs

end VkMiner.Skein.Glsl
