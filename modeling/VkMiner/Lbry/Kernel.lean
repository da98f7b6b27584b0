import VkMiner.Lbry.Host
import VkMiner.Ripemd160.Kernel
import VkMiner.Sha256d.Kernel
import VkMiner.Sha512.Kernel
set_option autoImplicit false

/-! The lbry kernel, over either kind of lane of its SHA-512. -/

namespace VkMiner.Lbry.Glsl
open Loops Sha256
open Progpow (Candidate)
open Progpow.Glsl (bswap32)
open Sha256d (Word)
open Sha256d.Glsl (sha256K sha256Iv sha256BigS1 sha256Ch sha256SmallS1 assign)
open Sha512.Glsl (SLane Pass)

/-! ### SHA-256, whose macros are those of sha256d -/

def round4 (w : Words 64) (i : Nat) (v : Vars) : Vars := Sha256d.Glsl.sha256dRound4 w i v

def round4Shifted (w : Words 64) (i : Nat) (v : Vars) : Vars :=
  Sha256d.Glsl.sha256dRound4Shifted w i v

def round8 (w : Words 64) (i : Nat) (v : Vars) : Vars := round4Shifted w (i + 4) (round4 w i v)

def round8Shifted (w : Words 64) (i : Nat) (v : Vars) : Vars :=
  round4 w (i + 4) (round4Shifted w i v)

def sched (w : Words 64) (i : Nat) : Words 64 := Sha256d.Glsl.sha256dSched w i

def sched4 (w : Words 64) (i : Nat) : Words 64 :=
  sched (sched (sched (sched w (i + 0)) (i + 1)) (i + 2)) (i + 3)

def sched8 (w : Words 64) (i : Nat) : Words 64 := sched4 (sched4 w i) (i + 4)

def schedTo61 (w : Words 64) : Words 64 :=
  let w := sched8 (sched8 w 16) 24
  let w := sched8 (sched8 w 32) 40
  let w := sched4 (sched8 w 48) 56
  sched (sched w 60) 61

def sched62_63 (w : Words 64) : Words 64 := sched (sched w 62) 63

def roundsTo59 (w : Words 64) (v : Vars) : Vars :=
  let v := round8 w 8 (round8 w 0 v)
  let v := round8 w 24 (round8 w 16 v)
  let v := round8 w 40 (round8 w 32 v)
  round4 w 56 (round8 w 48 v)

def rounds60_63 (w : Words 64) (v : Vars) : Vars := round4Shifted w 60 v

def lbrySha256Block (state : Words 8) (message : Words 16) : Words 8 :=
  let w := upTo 16 (Words.zeros 64) fun i w => w.write i (message.read i)
  let w := sched8 (sched8 w 16) 24
  let w := sched8 (sched8 w 32) 40
  let w := sched8 (sched8 w 48) 56
  let v := round8 w 8 (round8 w 0 (.load state))
  let v := round8 w 24 (round8 w 16 v)
  let v := round8 w 40 (round8 w 32 v)
  let v := round8 w 56 (round8 w 48 v)
  v.feed state

def lbrySha256_32 (message : Words 8) : Words 8 :=
  let w := upTo 8 (Words.zeros 16) fun i w => w.write i (message.read i)
  let w := (w.write 8 0x80000000).write 9 0
  let w := upTo 5 w fun i w => w.write (10 + i) 0
  let w := w.write 15 0x100
  lbrySha256Block (upTo 8 (Words.zeros 8) fun i state => state.write i (sha256Iv.read i)) w

/-! ### SHA-512 and RIPEMD-160 -/

section
variable {L : Type} [Inhabited L] (B : SLane L)

def sha512Words (message : Words 8) : Cells L 16 :=
  let w := upTo 4 (Cells.blank 16) fun i w =>
    w.write i (B.slane (message.read (2*i + 1)) (message.read (2*i)))
  let w := w.write 4 (B.slane 0 0x80000000)
  let w := upTo 10 w fun i w => w.write (5 + i) (B.slane 0 0)
  w.write 15 (B.slane 0x100 0)

def lbrySha512_32 (message : Words 8) : Cells L 8 :=
  let v := upTo 8 (Cells.blank 8) fun i v => v.write i (Sha512.Glsl.sha512Iv B i)
  let s : Pass L := ⟨v,sha512Words B message⟩
  let s := Sha512.Glsl.rounds16 B false 0 s
  let s := Sha512.Glsl.rounds16Sched B false 16 s
  let s := Sha512.Glsl.rounds16Sched B false 32 s
  let s := Sha512.Glsl.rounds16Sched B false 48 s
  let s := Sha512.Glsl.rounds16Sched B false 64 s
  upTo 8 (Cells.blank 8) fun i state =>
    state.write i (B.sadd (Sha512.Glsl.sha512Iv B i) (s.v.read i))

def ripemdWords (part : Cells L 4) : Words 16 :=
  let x := upTo 4 (Words.zeros 16) fun i x =>
    (x.write (2*i) (bswap32 (B.shi (part.read i)))).write (2*i + 1) (bswap32 (B.slo (part.read i)))
  let x := (x.write 8 0x80).write 9 0
  let x := upTo 4 x fun i x => x.write (10 + i) 0
  (x.write 14 0x100).write 15 0

def lbryRipemd160_32 (part : Cells L 4) : Words 5 :=
  Ripemd160.Glsl.ripemd160Words (ripemdWords B part)

/-! ### One nonce -/

/-- The message of the first block that the kernel has, over whatever is there. -/
def givenWords (garbage : Words 64) (push : LbryPush) (nonce : Word) : Words 64 :=
  let w := assign garbage 10 [push.tail10,nonce,0x80000000,0,0,0x380]
  upTo 10 w fun i w => w.write (16 + i) (push.sched.read i)

def withNonce (w : Words 64) (nonce : Word) : Words 64 :=
  let w := w.write 18 (w.read 18 + nonce)
  let w := w.write 20 (w.read 20 + sha256SmallS1 (w.read 18))
  let w := w.write 22 (w.read 22 + sha256SmallS1 (w.read 20))
  let w := w.write 24 (w.read 24 + sha256SmallS1 (w.read 22))
  w.write 25 (w.read 25 + w.read 18)

def firstWords (garbage : Words 64) (push : LbryPush) (nonce : Word) : Words 64 :=
  let w := withNonce (givenWords garbage push nonce) nonce
  let w := sched4 (sched (sched w 26) 27) 28
  let w := sched8 (sched8 w 32) 40
  sched8 (sched8 w 48) 56

def entering (push : LbryPush) (nonce : Word) : Vars :=
  ⟨push.midbuffer.read 0 + nonce,push.midbuffer.read 1,push.midbuffer.read 2,push.midbuffer.read 3,
    push.midbuffer.read 4 + nonce,push.midbuffer.read 5,push.midbuffer.read 6,push.midbuffer.read 7⟩

/-- The fifty-two rounds that are left of the first block. -/
def roundsFrom12 (w : Words 64) (v : Vars) : Vars :=
  let v := round8Shifted w 16 (round4 w 12 v)
  let v := round8Shifted w 32 (round8Shifted w 24 v)
  let v := round8Shifted w 48 (round8Shifted w 40 v)
  round8Shifted w 56 v

def firstDigest (push : LbryPush) (v : Vars) : Words 8 :=
  #v[push.midstate.read 0 + v.e,push.midstate.read 1 + v.f,push.midstate.read 2 + v.g,
    push.midstate.read 3 + v.h,push.midstate.read 4 + v.a,push.midstate.read 5 + v.b,
    push.midstate.read 6 + v.c,push.midstate.read 7 + v.d]

def ripemdBlock (ra rb : Words 5) : Words 16 :=
  let m := upTo 5 (Words.zeros 16) fun i m =>
    (m.write i (bswap32 (ra.read i))).write (i + 5) (bswap32 (rb.read i))
  let m := m.write 10 0x80000000
  let m := upTo 4 m fun i m => m.write (11 + i) 0
  m.write 15 0x140

/-- From the header's digest to the first digest of the closing pair. -/
def middle (first : Words 8) : Words 8 :=
  let h1 := lbrySha256_32 first
  let h2 := lbrySha512_32 B h1
  let lo : Cells L 4 := upTo 4 (Cells.blank 4) fun i lo => lo.write i (h2.read i)
  let hi : Cells L 4 := upTo 4 (Cells.blank 4) fun i hi => hi.write i (h2.read (i + 4))
  let m := ripemdBlock (lbryRipemd160_32 B lo) (lbryRipemd160_32 B hi)
  lbrySha256Block (upTo 8 (Words.zeros 8) fun i state => state.write i (sha256Iv.read i)) m

def lastWords (w : Words 64) (state : Words 8) : Words 64 :=
  schedTo61 (assign w 0 [state.read 0,state.read 1,state.read 2,state.read 3,state.read 4,
    state.read 5,state.read 6,state.read 7,0x80000000,0,0,0,0,0,0,0x100])

def h60 (w : Words 64) (v : Vars) : Word :=
  let t60 := v.d + sha256BigS1 v.a + sha256Ch v.a v.b v.c + sha256K.read 60 + w.read 60
  v.h + t60

def t61 (w : Words 64) (v : Vars) : Word :=
  v.c + sha256BigS1 (h60 w v) + sha256Ch (h60 w v) v.a v.b + sha256K.read 61 + w.read 61

def digestOf (v : Vars) : Words 8 := v.feed sha256Iv

/-- `lbry_search`, with what it emits. `garbage` is what the array of words holds before anything
is written to it. -/
def lbrySearch (garbage : Words 64) (push : LbryPush) (nonce : Word) : Option Candidate :=
  let w := firstWords garbage push nonce
  let first := firstDigest push (roundsFrom12 w (entering push nonce))
  let w := lastWords w (middle B first)
  let v := roundsTo59 w (.load sha256Iv)
  let top := bswap32 (sha256Iv.read 7 + h60 w v)
  if push.target.read 1 < top then none
  else if top = push.target.read 1 ∧
      push.target.read 0 < bswap32 (sha256Iv.read 6 + v.g + t61 w v) then none
  else
    let digest := digestOf (rounds60_63 (sched62_63 w) v)
    some ⟨nonce,0,upTo 8 (Words.zeros 8) fun i hash => hash.write i (bswap32 (digest.read i))⟩

def main (garbage : Words 64) (push : LbryPush) (noncesPerInvocation : Nat) (id : Word) :
    List Candidate :=
  let first := id * BitVec.ofNat 32 noncesPerInvocation
  let indices := (List.range noncesPerInvocation).map fun k => first + BitVec.ofNat 32 k
  (indices.takeWhile (· < push.count)).filterMap fun index =>
    lbrySearch B garbage push (push.nonceStart + index)

end

/-- The two ways the kernel is built. -/
inductive Module where
  | wide
  | pairs
  deriving DecidableEq

def Module.lanes : Module → SLane Halves
  | .wide => Sha512.Glsl.wideAdd
  | .pairs => Sha512.Glsl.pairs

end VkMiner.Lbry.Glsl
