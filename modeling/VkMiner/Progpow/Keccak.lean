import VkMiner.Progpow.Bits
set_option autoImplicit false

/-! Keccak's permutation over 32-bit lanes, on the host and in `keccak_f800.glsl`. -/

namespace VkMiner.Progpow
open Loops

def kRoundConstants : Words 22 :=
  #v[0x00000001,0x00008082,0x0000808a,0x80008000,0x0000808b,0x80000001,0x80008081,0x00008009,
    0x0000008a,0x00000088,0x80008009,0x8000000a,0x8000808b,0x0000008b,0x00008089,0x00008003,
    0x00008002,0x00000080,0x0000800a,0x8000000a,0x80008081,0x00008080]

def kRho : Words 25 :=
  #v[0,1,30,28,27,4,12,6,23,20,3,10,11,25,7,9,13,15,21,8,18,2,29,24,14]

/-- A round of `keccak_f800`. The host and the shader write the same loops and tables, and turn
their words round in two ways: `turn` by one place, `rho` by a lane's own offset. -/
def keccakRound (turn : Word → Word) (rho : Word → Word → Word) (round : Nat) (st : Words 25) :
    Words 25 :=
  let c := upTo 5 (Words.zeros 5) fun x c => c.write x
    (st.read x ^^^ st.read (x + 5) ^^^ st.read (x + 10) ^^^ st.read (x + 15) ^^^ st.read (x + 20))
  let st := upTo 5 st fun x st =>
    let d := c.read ((x + 4) % 5) ^^^ turn (c.read ((x + 1) % 5))
    upTo 5 st fun y st => st.write (x + 5 * y) (st.read (x + 5 * y) ^^^ d)
  let b := upTo 5 (Words.zeros 25) fun y b => upTo 5 b fun x b =>
    let source := x + 5 * y
    let place := y + 5 * ((2 * x + 3 * y) % 5)
    b.write place (rho (st.read source) (kRho.read source))
  let st := upTo 5 st fun y st => upTo 5 st fun x st =>
    st.write (x + 5 * y) (b.read (x + 5 * y) ^^^
      (~~~b.read ((x + 1) % 5 + 5 * y) &&& b.read ((x + 2) % 5 + 5 * y)))
  st.write 0 (st.read 0 ^^^ kRoundConstants.read round)

def keccakF800 (st : Words 25) : Words 25 := upTo 22 st (keccakRound (rotl32 · 1) rotl32)

/-- The shader's rotation is not one for no places, and it looks for lane 0 first. -/
def Glsl.keccakF800 (st : Words 25) : Words 25 :=
  upTo 22 st (keccakRound (rotl32 · 1) fun x n => if n = 0 then x else rotl32 x n)

theorem rotl32_of_ne {x n : Word} (h : n ≠ 0) : rotl32 x n = Glsl.rotl32 x n := if_neg h

theorem keccakF800_eq (st : Words 25) : Glsl.keccakF800 st = keccakF800 st := by
  have hturn : (Glsl.rotl32 · 1) = (rotl32 · 1) :=
    funext fun x => (rotl32_of_ne (by decide)).symm
  have hrho : (fun x n => if n = 0 then x else Glsl.rotl32 x n) = rotl32 := by
    funext x n
    split
    case isTrue h => rw [h,rotl32,if_pos rfl]
    case isFalse h => exact (rotl32_of_ne h).symm
  rw [Glsl.keccakF800,hturn,hrho,keccakF800]

end VkMiner.Progpow
