import VkMiner.Sha512.Host
set_option autoImplicit false

/-! SHA-512 as the device has it, over any of its kinds of lane: rounds that turn the names of the
variables, over a window of sixteen words expanded in place. -/

namespace VkMiner.Sha512.Glsl
open Loops Halves Sha2
open Sha256d (Word)

structure SLane (L : Type) where
  slane : Word → Word → L
  slo : L → Word
  shi : L → Word
  sand : L → L → L
  sxor : L → L → L
  snot : L → L
  sadd : L → L → L
  sshr : L → Nat → L
  srotr : L → Nat → L

def pairs : SLane Halves where
  slane lo hi := ⟨lo,hi⟩
  slo x := x.x
  shi x := x.y
  sand a b := ⟨a.x &&& b.x,a.y &&& b.y⟩
  sxor a b := ⟨a.x ^^^ b.x,a.y ^^^ b.y⟩
  snot a := ⟨~~~a.x,~~~a.y⟩
  sadd a b := ⟨a.x + b.x,a.y + b.y + carry a.x b.x⟩
  sshr x n :=
    if n = 0 then x
    else if 32 ≤ n then ⟨if n = 32 then x.y else x.y >>> (n - 32),0⟩
    else ⟨(x.x >>> n) ||| (x.y <<< (32 - n)),x.y >>> n⟩
  srotr x n :=
    let v := if 32 ≤ n then ⟨x.y,x.x⟩ else x
    let s := n % 32
    if s = 0 then v else ⟨(v.x >>> s) ||| (v.y <<< (32 - s)),(v.y >>> s) ||| (v.x <<< (32 - s))⟩

/-- `VKMINER_SHA512_WIDE_ADD`: pairs of halves, packed for the add alone. -/
def wideAdd : SLane Halves := { pairs with sadd := fun a b => split (a.join + b.join) }

def sha512IvWords : Words 16 :=
  Words.ofList [0x6a09e667,0xf3bcc908,0xbb67ae85,0x84caa73b,0x3c6ef372,0xfe94f82b,0xa54ff53a,0x5f1d36f1,
    0x510e527f,0xade682d1,0x9b05688c,0x2b3e6c1f,0x1f83d9ab,0xfb41bd6b,0x5be0cd19,0x137e2179]

def sha512_256IvWords : Words 16 :=
  Words.ofList [0x22312194,0xfc2bf72c,0x9f555fa3,0xc84c64c2,0x2393b86b,0x6f53b151,0x96387719,0x5940eabd,
    0x96283ee2,0xa88effe3,0xbe5e1e25,0x53863992,0x2b0199fc,0x2c85b8aa,0x0eb72ddc,0x81c52ca2]

def sha512KWords : Words 160 :=
  Words.ofList [0x428a2f98,0xd728ae22,0x71374491,0x23ef65cd,0xb5c0fbcf,0xec4d3b2f,0xe9b5dba5,0x8189dbbc,
    0x3956c25b,0xf348b538,0x59f111f1,0xb605d019,0x923f82a4,0xaf194f9b,0xab1c5ed5,0xda6d8118,
    0xd807aa98,0xa3030242,0x12835b01,0x45706fbe,0x243185be,0x4ee4b28c,0x550c7dc3,0xd5ffb4e2,
    0x72be5d74,0xf27b896f,0x80deb1fe,0x3b1696b1,0x9bdc06a7,0x25c71235,0xc19bf174,0xcf692694,
    0xe49b69c1,0x9ef14ad2,0xefbe4786,0x384f25e3,0x0fc19dc6,0x8b8cd5b5,0x240ca1cc,0x77ac9c65,
    0x2de92c6f,0x592b0275,0x4a7484aa,0x6ea6e483,0x5cb0a9dc,0xbd41fbd4,0x76f988da,0x831153b5,
    0x983e5152,0xee66dfab,0xa831c66d,0x2db43210,0xb00327c8,0x98fb213f,0xbf597fc7,0xbeef0ee4,
    0xc6e00bf3,0x3da88fc2,0xd5a79147,0x930aa725,0x06ca6351,0xe003826f,0x14292967,0x0a0e6e70,
    0x27b70a85,0x46d22ffc,0x2e1b2138,0x5c26c926,0x4d2c6dfc,0x5ac42aed,0x53380d13,0x9d95b3df,
    0x650a7354,0x8baf63de,0x766a0abb,0x3c77b2a8,0x81c2c92e,0x47edaee6,0x92722c85,0x1482353b,
    0xa2bfe8a1,0x4cf10364,0xa81a664b,0xbc423001,0xc24b8b70,0xd0f89791,0xc76c51a3,0x0654be30,
    0xd192e819,0xd6ef5218,0xd6990624,0x5565a910,0xf40e3585,0x5771202a,0x106aa070,0x32bbd1b8,
    0x19a4c116,0xb8d2d0c8,0x1e376c08,0x5141ab53,0x2748774c,0xdf8eeb99,0x34b0bcb5,0xe19b48a8,
    0x391c0cb3,0xc5c95a63,0x4ed8aa4a,0xe3418acb,0x5b9cca4f,0x7763e373,0x682e6ff3,0xd6b2b8a3,
    0x748f82ee,0x5defb2fc,0x78a5636f,0x43172f60,0x84c87814,0xa1f0ab72,0x8cc70208,0x1a6439ec,
    0x90befffa,0x23631e28,0xa4506ceb,0xde82bde9,0xbef9a3f7,0xb2c67915,0xc67178f2,0xe372532b,
    0xca273ece,0xea26619c,0xd186b8c7,0x21c0c207,0xeada7dd6,0xcde0eb1e,0xf57d4f7f,0xee6ed178,
    0x06f067aa,0x72176fba,0x0a637dc5,0xa2c898a6,0x113f9804,0xbef90dae,0x1b710b35,0x131c471b,
    0x28db77f5,0x23047d84,0x32caab7b,0x40c72493,0x3c9ebe0a,0x15c9bebc,0x431d67c4,0x9c100d4c,
    0x4cc5d4be,0xcb3e42b6,0x597f299c,0xfc657e2a,0x5fcb6fab,0x3ad6faec,0x6c44198c,0x4a475817]

section
variable {L : Type} (B : SLane L)

def sha512Iv (i : Nat) : L :=
  B.slane (sha512IvWords.read (2*i + 1)) (sha512IvWords.read (2*i))

def sha512_256Iv (i : Nat) : L :=
  B.slane (sha512_256IvWords.read (2*i + 1)) (sha512_256IvWords.read (2*i))

def sha512K (i : Nat) : L := B.slane (sha512KWords.read (2*i + 1)) (sha512KWords.read (2*i))

def sha512Ch (x y z : L) : L := B.sxor (B.sand x y) (B.sand (B.snot x) z)

def sha512Maj (x y z : L) : L := B.sxor (B.sxor (B.sand x y) (B.sand x z)) (B.sand y z)

def sha512BigS0 (x : L) : L := B.sxor (B.sxor (B.srotr x 28) (B.srotr x 34)) (B.srotr x 39)

def sha512BigS1 (x : L) : L := B.sxor (B.sxor (B.srotr x 14) (B.srotr x 18)) (B.srotr x 41)

def sha512SmallS0 (x : L) : L := B.sxor (B.sxor (B.srotr x 1) (B.srotr x 8)) (B.sshr x 7)

def sha512SmallS1 (x : L) : L := B.sxor (B.sxor (B.srotr x 19) (B.srotr x 61)) (B.sshr x 6)

def roundT1 (leftToRight : Bool) (h e f g k w : L) : L :=
  if leftToRight then
    B.sadd (B.sadd (B.sadd (B.sadd h (sha512BigS1 B e)) (sha512Ch B e f g)) k) w
  else B.sadd (B.sadd (B.sadd h (sha512BigS1 B e)) (B.sadd (sha512Ch B e f g) k)) w

variable [Inhabited L] (leftToRight : Bool)

def step (a b c d e f g h : Nat) (k w : L) (v : Cells L 8) : Cells L 8 :=
  let t1 := roundT1 B leftToRight (v.read h) (v.read e) (v.read f) (v.read g) k w
  let t2 := B.sadd (sha512BigS0 B (v.read a)) (sha512Maj B (v.read a) (v.read b) (v.read c))
  (v.write d (B.sadd (v.read d) t1)).write h (B.sadd t1 t2)

/-- The place of the variable `j` in round `i`: one further back from round to round. -/
def place (i j : Nat) : Nat := (8 + j - i % 8) % 8

def turn (i : Nat) (k w : L) (v : Cells L 8) : Cells L 8 :=
  step B leftToRight (place i 0) (place i 1) (place i 2) (place i 3) (place i 4) (place i 5)
    (place i 6) (place i 7) k w v

/-- One slot of the schedule, in place: `wa += s0(wb) + wi + s1(wn)`. -/
def sched (w : Cells L 16) (a b i n : Nat) : Cells L 16 :=
  w.write a (B.sadd (B.sadd (w.read a) (sha512SmallS0 B (w.read b)))
    (B.sadd (w.read i) (sha512SmallS1 B (w.read n))))

def schedS0 (w : Cells L 16) (a : Nat) (s0b : L) (i n : Nat) : Cells L 16 :=
  w.write a (B.sadd (B.sadd (w.read a) s0b) (B.sadd (w.read i) (sha512SmallS1 B (w.read n))))

structure Pass (L : Type) where
  v : Cells L 8
  w : Cells L 16

def roundAt (first j : Nat) (s : Pass L) : Pass L :=
  { s with v := turn B leftToRight j (sha512K B (first + j)) (s.w.read j) s.v }

def schedRoundAt (first j : Nat) (s : Pass L) : Pass L :=
  roundAt B leftToRight first j
    { s with w := sched B s.w j ((j + 1) % 16) ((j + 9) % 16) ((j + 14) % 16) }

def rounds16 (first : Nat) (s : Pass L) : Pass L := upTo 16 s (roundAt B leftToRight first)

def rounds16Sched (first : Nat) (s : Pass L) : Pass L :=
  upTo 16 s (schedRoundAt B leftToRight first)

end

end VkMiner.Sha512.Glsl
