import VkMiner.Heavyhash.Kernel
set_option autoImplicit false

/-! The permutation of the kernel, over lanes that stand for words of 64 bits, is the host's. -/

namespace VkMiner.Heavyhash.Glsl
open Loops Cells Halves
open Sha256d (Word)

variable {L : Type} [Inhabited L] {B : KLane L} {val : L → Word64}

/-- The lanes stand for words of 64 bits. -/
structure KLane.Lawful (B : KLane L) (val : L → Word64) : Prop where
  hom : B.toLanes.Hom lanes val
  klane : ∀ lo hi, val (B.klane lo hi) = join ⟨lo,hi⟩
  klo : ∀ x, B.klo x = (val x).setWidth 32
  khi : ∀ x, B.khi x = (val x >>> 32).setWidth 32

theorem int64_lawful : int64.Lawful id where
  hom := ⟨rfl,fun _ _ => rfl,fun _ _ => rfl,fun _ => rfl,fun _ _ _ => rfl⟩
  klane lo hi := (join_eq ⟨lo,hi⟩).symm
  klo _ := rfl
  khi _ := rfl

theorem pairs_lawful : pairs.Lawful join where
  hom := by
    refine ⟨rfl,join_xor,join_and,join_not,fun p n hn => ?_⟩
    have hzero : rotl64 p.join 0 = rotl p.join 0 := (rotl_zero p.join).symm
    rw [show pairs.rotl p n = turn p n from rfl,join_turn p hn]
    obtain rfl | hpos := Nat.eq_zero_or_pos n
    · exact hzero.symm
    · exact (if_neg (by omega)).symm
  klane _ _ := rfl
  klo p := (low_join p).symm
  khi p := (high_join p).symm

/-! ### The rounds -/

theorem sha3Rc_join {r : Nat} (hr : r < 24) :
    join ⟨sha3RcLow.read r,sha3RcHigh.read r⟩ = kRc.read r := by
  interval_cases r <;> rfl

theorem kRho_lt {i : Nat} (hi : i < 25) : kRho i < 64 := by
  interval_cases i <;> decide

theorem hhRound_map (hB : B.Lawful val) (a : Cells L 25) {r : Nat} (hr : r < 24) :
    (hhRound B a r).map val = Keccak.round lanes kRho (a.map val) (kRc.read r) := by
  rw [← sha3Rc_join hr,← hB.klane]
  exact hB.hom.round (fun i hi => kRho_lt hi) a _

theorem hhKeccakfHead_map (hB : B.Lawful val) (a : Cells L 25) :
    (hhKeccakfHead B a).map val =
      upTo 23 (a.map val) fun r a => Keccak.round lanes kRho a (kRc.read r) := by
  have hhead : hhKeccakfHead B a = upTo 23 a fun r a => hhRound B a r :=
    (upTo_add 1 22 a fun r a => hhRound B a r).symm
  rw [hhead]
  exact upTo_hom (Vector.map val) a fun r hr a => hhRound_map hB a (by omega)

theorem rounds_map (hB : B.Lawful val) (a : Cells L 25) :
    (hhRound B (hhKeccakfHead B a) 23).map val = keccakf (a.map val) := by
  rw [hhRound_map hB _ (by decide),hhKeccakfHead_map hB]
  rfl

/-! ### The words of a digest -/

def digestWord (a : Cells Word64 25) (i : Nat) : Word :=
  (a.read (i / 2) >>> (32 * (i % 2))).setWidth 32

theorem lowWords_read (hB : B.Lawful val) (a : Cells L 25) {i : Nat} (hi : i < 8) :
    (lowWords B a).read i = digestWord (a.map val) i := by
  have hlane (j : Nat) : Cells.read (a.map val) j = val (a.read j) :=
    Cells.read_map val hB.hom.blank a j
  rw [digestWord,hlane]
  interval_cases i <;>
    simp (disch := decide) only [lowWords,upTo,Words.read_write_self,Words.read_write_ne,hB.klo,
      hB.khi,Nat.reduceMul,Nat.reduceAdd,Nat.reduceDiv,Nat.reduceMod,BitVec.ushiftRight_zero]

theorem read_round_three (a : Cells Word64 25) (rc : Word64) :
    Cells.read (Keccak.round lanes kRho a rc) 3 =
      rotl64 (a.read 18 ^^^ Keccak.mixed lanes a 3) 21 ^^^
        (~~~rotl64 (a.read 24 ^^^ Keccak.mixed lanes a 4) 14 &&&
          (a.read 0 ^^^ Keccak.mixed lanes a 0)) := by
  have htheta {i : Nat} (hi : i < 25) : Cells.read (Keccak.theta lanes a) i =
      a.read i ^^^ Keccak.mixed lanes a (i % 5) := Keccak.read_theta a hi
  have hb (t : Cells Word64 25) : Cells.read (Keccak.rhoPi lanes kRho t) 3 = rotl64 (t.read 18) 21 ∧
      Cells.read (Keccak.rhoPi lanes kRho t) 4 = rotl64 (t.read 24) 14 ∧
      Cells.read (Keccak.rhoPi lanes kRho t) 0 = t.read 0 := by
    refine ⟨?_,?_,?_⟩ <;>
      simp (disch := decide) only [Keccak.rhoPi,upTo,Cells.read_write_self,Cells.read_write_ne,
        Nat.reduceMul,Nat.reduceAdd,Nat.reduceMod] <;> rfl
  have hchi (t b : Cells Word64 25) : Cells.read (Keccak.chi lanes t b) 3 =
      b.read 3 ^^^ (~~~b.read 4 &&& b.read 0) := by
    simp (disch := decide) only [Keccak.chi,upTo,Cells.read_write_self,Cells.read_write_ne,
      Nat.reduceMul,Nat.reduceAdd,Nat.reduceMod]
    rfl
  obtain ⟨h3,h4,h0⟩ := hb (Keccak.theta lanes a)
  simp only [Keccak.round]
  rw [Cells.read_write_ne _ _ (by decide),hchi,h3,h4,h0,htheta (by decide),htheta (by decide),
    htheta (by decide)]

theorem hhTop_eq (hB : B.Lawful val) (a : Cells L 25) :
    hhTop B a = (lowWords B (hhRound B a 23)).read 7 := by
  have hparity (x : Nat) : val (Keccak.parity B.toLanes a x) = Keccak.parity lanes (a.map val) x :=
    hB.hom.parity a x
  have hlane (j : Nat) : val (a.read j) = Cells.read (a.map val) j := hB.hom.read a j
  have hc {x : Nat} (hx : x < 5) : Cells.read (upTo 5 (blank 5) fun x c =>
      c.write x (Keccak.parity B.toLanes a x) : Cells L 5) x = Keccak.parity B.toLanes a x := by
    rw [Cells.read_fill _ _ (Nat.le_refl 5),if_pos hx]
  have hmixed (y : Word64) (x : Nat) : y ^^^ Keccak.mixed lanes (a.map val) x =
      y ^^^ Keccak.parity lanes (a.map val) ((x + 4) % 5) ^^^
        rotl64 (Keccak.parity lanes (a.map val) ((x + 1) % 5)) 1 :=
    (BitVec.xor_assoc _ _ _).symm
  rw [lowWords_read hB _ (by decide),digestWord,hhRound_map hB a (by decide),read_round_three,hmixed,
    hmixed,hmixed]
  simp (disch := decide) only [hhTop,hc,hB.khi,hB.hom.xor,hB.hom.and,hB.hom.not,hB.hom.rotl,hparity,
    hlane]
  rfl

end VkMiner.Heavyhash.Glsl
