import VkMiner.Progpow.Kernel
import VkMiner.Sha512.Kernel
import VkMiner.Sha512256d.Host
set_option autoImplicit false

/-! The sha512256d kernel, over any kind of lane and with either order of a round's adds. -/

namespace VkMiner.Sha512256d.Glsl
open Loops Sha512.Glsl
open Progpow (Candidate)
open Progpow.Glsl (bswap32)
open Sha256d (Word)

variable {L : Type} [Inhabited L] (B : SLane L) (leftToRight : Bool)

/-! ### The job's part, which the workgroup keeps in shared memory -/

def headerWord (push : Sha512256dPush) (i : Nat) : L :=
  B.slane (push.header.read (2*i + 1)) (push.header.read (2*i))

/-- The constants of the first block that are not zero: words 10 and 15. -/
def endMark : L := B.slane 0 0x80000000

def headerBits : L := B.slane 0x280 0

def initial : Cells L 8 := upTo 8 (Cells.blank 8) fun i v => v.write i (sha512_256Iv B i)

/-- Rounds 0 to 8, and round 9 without its message word. -/
def prehashState (push : Sha512256dPush) (pre : Cells L 20) : Cells L 20 :=
  let v := upTo 9 (initial B) fun j v =>
    turn B leftToRight j (sha512K B j) (headerWord B push j) v
  let t1 := B.sadd (B.sadd (v.read 6) (sha512BigS1 B (v.read 3)))
    (B.sadd (sha512Ch B (v.read 3) (v.read 4) (v.read 5)) (sha512K B 9))
  let t2 := B.sadd (sha512BigS0 B (v.read 7)) (sha512Maj B (v.read 7) (v.read 0) (v.read 1))
  let pre := ((pre.write 0 (v.read 0)).write 1 (v.read 1)).write 2 (B.sadd (v.read 2) t1)
  let pre := ((pre.write 3 (v.read 3)).write 4 (v.read 4)).write 5 (v.read 5)
  (pre.write 6 (B.sadd t1 t2)).write 7 (v.read 7)

def prehashSchedule (push : Sha512256dPush) (pre : Cells L 20) : Cells L 20 :=
  let w := headerWord B push
  let w17 := B.sadd (B.sadd (w 1) (sha512SmallS0 B (w 2)))
    (B.sadd (endMark B) (sha512SmallS1 B (headerBits B)))
  let w19 := B.sadd (B.sadd (w 3) (sha512SmallS0 B (w 4))) (sha512SmallS1 B w17)
  let w21 := B.sadd (B.sadd (w 5) (sha512SmallS0 B (w 6))) (sha512SmallS1 B w19)
  let pre := pre.write 8 (B.sadd (w 0) (sha512SmallS0 B (w 1)))
  let pre := pre.write 9 w17
  let pre := pre.write 10 (B.sadd (w 2) (sha512SmallS0 B (w 3)))
  let pre := pre.write 11 w19
  let pre := pre.write 12 (B.sadd (w 4) (sha512SmallS0 B (w 5)))
  let pre := pre.write 13 w21
  let pre := pre.write 14 (B.sadd (B.sadd (w 6) (sha512SmallS0 B (w 7))) (headerBits B))
  let pre := pre.write 15
    (B.sadd (B.sadd (w 7) (sha512SmallS0 B (w 8))) (sha512SmallS1 B w21))
  let pre := pre.write 16 (B.sadd (w 8) w17)
  let pre := pre.write 17 (sha512SmallS0 B w17)
  let pre := pre.write 18 (sha512SmallS0 B w19)
  pre.write 19 (sha512SmallS0 B w21)

/-- What is in shared memory after the barrier. The two invocations that write it write to
different places of it. -/
def prehash (push : Sha512256dPush) : Cells L 20 :=
  prehashSchedule B push (prehashState B leftToRight push (Cells.blank 20))

/-! ### The first pass -/

def givenWord (pre : Cells L 20) (w : Cells L 16) : Nat → L
  | 0 => B.sadd (pre.read 8) (w.read 9)
  | 1 => pre.read 9
  | 2 => B.sadd (pre.read 10) (sha512SmallS1 B (w.read 0))
  | 3 => pre.read 11
  | 4 => B.sadd (pre.read 12) (sha512SmallS1 B (w.read 2))
  | 5 => pre.read 13
  | 6 => B.sadd (pre.read 14) (sha512SmallS1 B (w.read 4))
  | 7 => B.sadd (pre.read 15) (w.read 0)
  | _ => B.sadd (B.sadd (pre.read 16) (sha512SmallS1 B (w.read 6))) (sha512SmallS0 B (w.read 9))

def givenRoundAt (pre : Cells L 20) (j : Nat) (s : Pass L) : Pass L :=
  roundAt B leftToRight 16 j { s with w := s.w.write j (givenWord B pre s.w j) }

/-- A slot of the schedule in rounds 32 to 47, where three of the `s0` terms are the job's. -/
def sched32 (pre : Cells L 20) (w : Cells L 16) : Nat → Cells L 16
  | 0 => schedS0 B w 0 (pre.read 17) 9 14
  | 2 => schedS0 B w 2 (pre.read 18) 11 0
  | 4 => schedS0 B w 4 (pre.read 19) 13 2
  | j => sched B w j ((j + 1) % 16) ((j + 9) % 16) ((j + 14) % 16)

def rounds32Sched (pre : Cells L 20) (s : Pass L) : Pass L :=
  upTo 16 s fun j s => roundAt B leftToRight 32 j { s with w := sched32 B pre s.w j }

def entering (pre : Cells L 20) (w9 : L) : Cells L 8 :=
  let v := upTo 8 (Cells.blank 8) fun i v => v.write i (pre.read i)
  (v.write 2 (B.sadd (pre.read 2) w9)).write 6 (B.sadd (pre.read 6) w9)

/-- The window that enters round 10, over whatever is there. -/
def firstWords (garbage : Cells L 16) (w9 : L) : Cells L 16 :=
  let w := (garbage.write 9 w9).write 10 (endMark B)
  let w := upTo 4 w fun i w => w.write (11 + i) (B.slane 0 0)
  w.write 15 (headerBits B)

def feedForward (v : Cells L 8) (count : Nat) : Cells L 8 :=
  upTo count (Cells.blank 8) fun i state => state.write i (B.sadd (sha512_256Iv B i) (v.read i))

def sha512256dFirst (garbage : Cells L 16) (pre : Cells L 20) (w9 : L) : Cells L 8 :=
  let s : Pass L := ⟨entering B pre w9,firstWords B garbage w9⟩
  let s := upTo 6 s fun i => roundAt B leftToRight 0 (10 + i)
  let s := upTo 9 s fun i => givenRoundAt B leftToRight pre i
  let s := upTo 7 s fun i => schedRoundAt B leftToRight 16 (9 + i)
  let s := rounds32Sched B leftToRight pre s
  let s := rounds16Sched B leftToRight 48 s
  let s := rounds16Sched B leftToRight 64 s
  feedForward B s.v 8

/-! ### The second pass, and the screen -/

def secondWords (state : Cells L 8) : Cells L 16 :=
  let w := upTo 4 (Cells.blank 16) fun i w => w.write i (state.read i)
  let w := w.write 4 (B.slane 0 0x80000000)
  let w := upTo 10 w fun i w => w.write (5 + i) (B.slane 0 0)
  w.write 15 (B.slane 0x100 0)

def secondTo76 (state : Cells L 8) : Pass L :=
  let s : Pass L := ⟨initial B,secondWords B state⟩
  let s := rounds16 B leftToRight 0 s
  let s := rounds16Sched B leftToRight 16 s
  let s := rounds16Sched B leftToRight 32 s
  let s := rounds16Sched B leftToRight 48 s
  let s := upTo 12 s fun i => schedRoundAt B leftToRight 64 i
  { s with w := sched B s.w 12 13 5 10 }

def t1At76 (s : Pass L) : L :=
  roundT1 B leftToRight (s.v.read 3) (s.v.read 0) (s.v.read 1) (s.v.read 2) (sha512K B 76)
    (s.w.read 12)

def t2At76 (s : Pass L) : L :=
  B.sadd (sha512BigS0 B (s.v.read 4)) (sha512Maj B (s.v.read 4) (s.v.read 5) (s.v.read 6))

def rest76 (s : Pass L) (t1 t2 : L) : Pass L :=
  let v := s.v.write 7 (B.sadd (s.v.read 7) t1)
  let s := { s with v := v.write 3 (B.sadd t1 t2) }
  upTo 3 s fun i => schedRoundAt B leftToRight 64 (13 + i)

def emitted (state : Cells L 8) : Words 8 :=
  upTo 4 (Words.zeros 8) fun i hash =>
    (hash.write (2*i) (bswap32 (B.shi (state.read i)))).write (2*i + 1)
      (bswap32 (B.slo (state.read i)))

def sha512256dSearch (garbage : Cells L 16) (push : Sha512256dPush) (nonce : Word) :
    Option Candidate :=
  let state := sha512256dFirst B leftToRight garbage (prehash B leftToRight push)
    (B.slane nonce (push.header.read 18))
  let s := secondTo76 B leftToRight state
  let t1 := t1At76 B leftToRight s
  let t2 := t2At76 B s
  let d3 := B.sadd (sha512_256Iv B 3) (B.sadd t1 t2)
  let top := bswap32 (B.slo d3)
  let next := bswap32 (B.shi d3)
  if push.target.read 1 < top then none
  else if top = push.target.read 1 ∧ push.target.read 0 < next then none
  else
    let s := rest76 B leftToRight s t1 t2
    some ⟨nonce,0,emitted B (feedForward B s.v 4)⟩

def main (garbage : Cells L 16) (push : Sha512256dPush) (noncesPerInvocation : Nat) (id : Word) :
    List Candidate :=
  let first := id * BitVec.ofNat 32 noncesPerInvocation
  let indices := (List.range noncesPerInvocation).map fun k => first + BitVec.ofNat 32 k
  (indices.takeWhile (· < push.count)).filterMap fun index =>
    sha512256dSearch B leftToRight garbage push (push.nonceStart + index)

/-! ### The modules -/

/-- The three ways the kernel is built. -/
inductive Module where
  | wide
  | wideFold
  | pairs
  deriving DecidableEq

def Module.lanes : Module → SLane Halves
  | .wide | .wideFold => wideAdd
  | .pairs => Sha512.Glsl.pairs

def Module.t1LeftToRight : Module → Bool
  | .wideFold => true
  | .wide | .pairs => false

end VkMiner.Sha512256d.Glsl
