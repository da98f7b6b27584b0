import Mathlib.Logic.Function.Iterate
import VkMiner.Groestl.Host
set_option autoImplicit false

/-! The powers that the S-box is made of, in numbers, which is how they are worked out here. -/

namespace VkMiner.Groestl
open Loops
open Sha256d (Byte)

def mulFrom : Nat → Nat → Nat → Nat → Nat
  | 0,r,_,_ => r
  | n + 1,r,a,b =>
    mulFrom n (bif b.testBit 0 then r ^^^ a else r)
      ((2*a % 256) ^^^ (bif a.testBit 7 then 27 else 0)) (b/2)

def inverseFrom : Nat → Nat → Nat → Nat
  | 0,_,inv => inv
  | n + 1,sq,inv => inverseFrom n (mulFrom 8 0 sq sq) (mulFrom 8 0 inv (mulFrom 8 0 sq sq))

def affine (inv : Byte) : Byte :=
  (upTo 4 inv fun i s => s ^^^ ((inv <<< (i + 1)) ||| (inv >>> (8 - (i + 1))))) ^^^ 0x63

theorem upTo_front {σ : Type} (n : Nat) (s : σ) (f : σ → σ) :
    upTo (n + 1) s (fun _ => f) = upTo n (f s) fun _ => f := by
  rw [Nat.add_comm,upTo_add]
  rfl

theorem lowBit_iff (b : Byte) : b &&& 1 ≠ 0 ↔ b.toNat.testBit 0 = true := by
  revert b
  decide +kernel

theorem highBit_iff (a : Byte) : a &&& 0x80 ≠ 0 ↔ a.toNat.testBit 7 = true := by
  revert a
  decide +kernel

theorem gfMulPass_toNat (s : Product) :
    (gfMulPass s).r.toNat = (bif s.b.toNat.testBit 0 then s.r.toNat ^^^ s.a.toNat else s.r.toNat) ∧
      (gfMulPass s).a.toNat =
        (2*s.a.toNat % 256) ^^^ (bif s.a.toNat.testBit 7 then 27 else 0) ∧
      (gfMulPass s).b.toNat = s.b.toNat/2 := by
  simp only [gfMulPass,lowBit_iff,highBit_iff]
  refine ⟨?_,?_,?_⟩
  · cases s.b.toNat.testBit 0 <;> simp
  · have hdouble : (s.a <<< 1).toNat = 2*s.a.toNat % 256 := by
      rw [BitVec.toNat_shiftLeft,Nat.shiftLeft_eq,Nat.pow_one,Nat.mul_comm]
    rw [BitVec.toNat_xor,hdouble]
    cases s.a.toNat.testBit 7 <;> simp
  · rw [BitVec.toNat_ushiftRight,Nat.shiftRight_eq_div_pow]

theorem mulFrom_eq (n : Nat) (s : Product) :
    mulFrom n s.r.toNat s.a.toNat s.b.toNat = (upTo n s fun _ s => gfMulPass s).r.toNat := by
  induction n generalizing s with
  | zero => rfl
  | succ n ih =>
    obtain ⟨hr,ha,hb⟩ := gfMulPass_toNat s
    rw [mulFrom,← hr,← ha,← hb,ih,upTo_front]

theorem gfMul_toNat (a b : Byte) : (gfMul a b).toNat = mulFrom 8 0 a.toNat b.toNat :=
  (mulFrom_eq 8 ⟨0,a,b⟩).symm

theorem inverseFrom_eq (n : Nat) (s : Powers) :
    inverseFrom n s.sq.toNat s.inv.toNat = (upTo n s fun _ s => powersPass s).inv.toNat := by
  induction n generalizing s with
  | zero => rfl
  | succ n ih => rw [inverseFrom,← gfMul_toNat,← gfMul_toNat,ih ⟨_,_⟩,upTo_front,powersPass]

theorem groestl512Sbox_eq (x : Byte) :
    groestl512Sbox x = affine (BitVec.ofNat 8 (inverseFrom 7 x.toNat 1)) := by
  have h := inverseFrom_eq 7 ⟨x,1⟩
  rw [show (1 : Byte).toNat = 1 from rfl] at h
  rw [h,BitVec.ofNat_toNat,BitVec.setWidth_eq]
  rfl

/-! ### The powers, unrolled -/

def mulPass (k : Nat → Nat → Nat → Nat) (r a b : Nat) : Nat :=
  k (Nat.xor r (Nat.mul a (Nat.mod b 2)))
    (Nat.xor (Nat.mod (Nat.mul 2 a) 256) (Nat.mul 27 (Nat.div a 128))) (Nat.div b 2)

def mulUnrolled : Nat → Nat → Nat → Nat :=
  mulPass (mulPass (mulPass (mulPass (mulPass (mulPass (mulPass (mulPass fun r _ _ => r)))))))

def powerPass (k : Nat → Nat → Nat) (sq inv : Nat) : Nat :=
  k (mulUnrolled 0 sq sq) (mulUnrolled 0 inv (mulUnrolled 0 sq sq))

def inverseUnrolled : Nat → Nat → Nat :=
  powerPass (powerPass (powerPass (powerPass (powerPass (powerPass (powerPass fun _ inv => inv))))))

variable {n r a b : Nat}

theorem doubled_lt (ha : a < 256) : (2*a % 256) ^^^ 27*(a/128) < 256 :=
  Nat.xor_lt_two_pow (n := 8) (Nat.mod_lt _ (by decide)) (by omega)

theorem mulFrom_pass (ha : a < 256) (n r b : Nat) :
    mulFrom (n + 1) r a b = mulFrom n (r ^^^ a*(b % 2)) ((2*a % 256) ^^^ 27*(a/128)) (b/2) := by
  have hlow : (bif b.testBit 0 then r ^^^ a else r) = r ^^^ a*(b % 2) := by
    rw [Nat.testBit_zero]
    obtain h | h : b % 2 = 0 ∨ b % 2 = 1 := by omega
    · simp [h]
    · simp [h]
  have hhigh : (bif a.testBit 7 then 27 else 0) = 27*(a/128) := by
    rw [Nat.testBit_eq_decide_div_mod_eq]
    obtain h | h : a/128 = 0 ∨ a/128 = 1 := by omega
    · simp [h]
    · simp [h]
  rw [mulFrom,hlow,hhigh]

theorem mulFrom_lt (hr : r < 256) (ha : a < 256) : mulFrom n r a b < 256 := by
  induction n generalizing r a b with
  | zero => exact hr
  | succ n ih =>
    rw [mulFrom_pass ha]
    refine ih (Nat.xor_lt_two_pow (n := 8) hr ?_) (doubled_lt ha)
    obtain h | h : b % 2 = 0 ∨ b % 2 = 1 := by omega
    · simp [h]
    · simpa [h] using ha

theorem mulFrom_iterate (ha : a < 256) (n r b : Nat) :
    mulFrom n r a b = (mulPass^[n] fun r _ _ => r) r a b := by
  induction n generalizing r a b with
  | zero => rfl
  | succ n ih =>
    rw [mulFrom_pass ha,ih (doubled_lt ha),Function.iterate_succ_apply']
    rfl

theorem mulFrom_unrolled (ha : a < 256) (r b : Nat) : mulFrom 8 r a b = mulUnrolled r a b :=
  mulFrom_iterate ha 8 r b

theorem inverseFrom_iterate {sq inv : Nat} (hs : sq < 256) (hi : inv < 256) (n : Nat) :
    inverseFrom n sq inv = (powerPass^[n] fun _ inv => inv) sq inv := by
  have hmul {a : Nat} (ha : a < 256) (b : Nat) : mulUnrolled 0 a b < 256 :=
    mulFrom_unrolled ha 0 b ▸ mulFrom_lt (by decide) ha
  induction n generalizing sq inv with
  | zero => rfl
  | succ n ih =>
    rw [inverseFrom,mulFrom_unrolled hs,mulFrom_unrolled hi,ih (hmul hs _) (hmul hi _),
      Function.iterate_succ_apply']
    rfl

theorem inverseFrom_unrolled {sq inv : Nat} (hs : sq < 256) (hi : inv < 256) :
    inverseFrom 7 sq inv = inverseUnrolled sq inv := inverseFrom_iterate hs hi 7

end VkMiner.Groestl
