import VkMiner.Lib.Cells
set_option autoImplicit false

/-! One round of Keccak-f over any kind of lane, with its offsets as a parameter. -/

namespace Keccak
open Loops

structure Lanes (L : Type) where
  xor : L → L → L
  and : L → L → L
  not : L → L
  rotl : L → Nat → L

variable {L M : Type} [Inhabited L] [Inhabited M] (B : Lanes L) (rho : Nat → Nat)

def parity (a : Cells L 25) (x : Nat) : L :=
  B.xor (B.xor (B.xor (B.xor (a.read x) (a.read (x + 5))) (a.read (x + 10))) (a.read (x + 15)))
    (a.read (x + 20))

def theta (a : Cells L 25) : Cells L 25 :=
  let c : Cells L 5 := upTo 5 (Cells.blank 5) fun x c => c.write x (parity B a x)
  let d : Cells L 5 := upTo 5 (Cells.blank 5) fun x d =>
    d.write x (B.xor (c.read ((x + 4) % 5)) (B.rotl (c.read ((x + 1) % 5)) 1))
  upTo 5 a fun x a => upTo 5 a fun y a =>
    a.write (x + 5*y) (B.xor (a.read (x + 5*y)) (d.read x))

def rhoPi (a : Cells L 25) : Cells L 25 :=
  upTo 5 (Cells.blank 25) fun x b => upTo 5 b fun y b =>
    b.write (y + 5*((2*x + 3*y) % 5)) (B.rotl (a.read (x + 5*y)) (rho (x + 5*y)))

def chi (a b : Cells L 25) : Cells L 25 :=
  upTo 5 a fun y a => upTo 5 a fun x a =>
    a.write (5*y + x) (B.xor (b.read (5*y + x))
      (B.and (B.not (b.read (5*y + (x + 1) % 5))) (b.read (5*y + (x + 2) % 5))))

def round (a : Cells L 25) (rc : L) : Cells L 25 :=
  let a := theta B a
  let a := chi B a (rhoPi B rho a)
  a.write 0 (B.xor (a.read 0) rc)

/-! ### Lanes that stand for others -/

structure Lanes.Hom (B : Lanes L) (C : Lanes M) (φ : L → M) : Prop where
  blank : φ default = default
  xor : ∀ a b, φ (B.xor a b) = C.xor (φ a) (φ b)
  and : ∀ a b, φ (B.and a b) = C.and (φ a) (φ b)
  not : ∀ a, φ (B.not a) = C.not (φ a)
  rotl : ∀ a n, n < 64 → φ (B.rotl a n) = C.rotl (φ a) n

namespace Lanes.Hom
variable {B : Lanes L} {C : Lanes M} {φ : L → M} {rho : Nat → Nat}

theorem read (h : B.Hom C φ) {n : Nat} (v : Cells L n) (i : Nat) :
    φ (v.read i) = Cells.read (v.map φ) i := (Cells.read_map φ h.blank v i).symm

theorem parity (h : B.Hom C φ) (a : Cells L 25) (x : Nat) :
    φ (Keccak.parity B a x) = Keccak.parity C (a.map φ) x := by
  simp only [Keccak.parity,h.xor,h.read]

theorem theta (h : B.Hom C φ) (a : Cells L 25) :
    (Keccak.theta B a).map φ = Keccak.theta C (a.map φ) := by
  have hc : (upTo 5 (Cells.blank 5) fun x c => c.write x (Keccak.parity B a x) : Cells L 5).map φ =
      upTo 5 (Cells.blank 5) fun x c => c.write x (Keccak.parity C (a.map φ) x) := by
    rw [← Cells.map_blank φ h.blank]
    exact upTo_hom (Vector.map φ) _ fun x _ c => by rw [Cells.map_write,h.parity]
  have hd (c : Cells L 5) : (upTo 5 (Cells.blank 5) fun x d => d.write x
      (B.xor (c.read ((x + 4) % 5)) (B.rotl (c.read ((x + 1) % 5)) 1)) : Cells L 5).map φ =
        upTo 5 (Cells.blank 5) fun x d => d.write x
          (C.xor (Cells.read (c.map φ) ((x + 4) % 5)) (C.rotl (Cells.read (c.map φ) ((x + 1) % 5)) 1)) := by
    rw [← Cells.map_blank φ h.blank]
    exact upTo_hom (Vector.map φ) _ fun x _ d => by
      rw [Cells.map_write,h.xor,h.rotl _ _ (by decide),h.read,h.read]
  simp only [Keccak.theta,← hc,← hd]
  refine upTo_hom (Vector.map φ) _ fun x _ a => upTo_hom (Vector.map φ) _ fun y _ a => ?_
  rw [Cells.map_write,h.xor,h.read,h.read]

theorem rhoPi (h : B.Hom C φ) (hrho : ∀ i < 25, rho i < 64) (a : Cells L 25) :
    (Keccak.rhoPi B rho a).map φ = Keccak.rhoPi C rho (a.map φ) := by
  rw [Keccak.rhoPi,Keccak.rhoPi,← Cells.map_blank φ h.blank]
  refine upTo_hom (Vector.map φ) _ fun x hx b => upTo_hom (Vector.map φ) _ fun y hy b => ?_
  rw [Cells.map_write,h.rotl _ _ (hrho _ (by omega)),h.read]

theorem chi (h : B.Hom C φ) (a b : Cells L 25) :
    (Keccak.chi B a b).map φ = Keccak.chi C (a.map φ) (b.map φ) := by
  refine upTo_hom (Vector.map φ) _ fun y _ a => upTo_hom (Vector.map φ) _ fun x _ a => ?_
  rw [Cells.map_write,h.xor,h.and,h.not,h.read,h.read,h.read]

theorem round (h : B.Hom C φ) (hrho : ∀ i < 25, rho i < 64) (a : Cells L 25) (rc : L) :
    (Keccak.round B rho a rc).map φ = Keccak.round C rho (a.map φ) (φ rc) := by
  rw [Keccak.round,Keccak.round,Cells.map_write,h.xor,h.read,h.chi,h.rhoPi hrho,h.theta]

end Lanes.Hom

/-! ### A lane of the result -/

section
variable {B : Lanes L} {rho : Nat → Nat}

def mixed (B : Lanes L) (a : Cells L 25) (x : Nat) : L :=
  B.xor (parity B a ((x + 4) % 5)) (B.rotl (parity B a ((x + 1) % 5)) 1)

theorem read_theta (a : Cells L 25) {i : Nat} (hi : i < 25) :
    (theta B a).read i = B.xor (a.read i) (mixed B a (i % 5)) := by
  have hc {x : Nat} (hx : x < 5) : Cells.read (upTo 5 (Cells.blank 5) fun x c =>
      c.write x (parity B a x) : Cells L 5) x = parity B a x := by
    rw [Cells.read_fill _ _ (Nat.le_refl 5),if_pos hx]
  have hd {x : Nat} (hx : x < 5) (c : Cells L 5) : Cells.read (upTo 5 (Cells.blank 5) fun x d =>
      d.write x (B.xor (c.read ((x + 4) % 5)) (B.rotl (c.read ((x + 1) % 5)) 1)) : Cells L 5) x =
        B.xor (c.read ((x + 4) % 5)) (B.rotl (c.read ((x + 1) % 5)) 1) := by
    rw [Cells.read_fill _ _ (Nat.le_refl 5),if_pos hx]
  simp only [theta]
  generalize hcs : (upTo 5 (Cells.blank 5) fun x c => c.write x (parity B a x) : Cells L 5) = c
    at hc
  generalize hds : (upTo 5 (Cells.blank 5) fun x d =>
    d.write x (B.xor (c.read ((x + 4) % 5)) (B.rotl (c.read ((x + 1) % 5)) 1)) : Cells L 5) = d
  have hd {x : Nat} (hx : x < 5) : d.read x = mixed B a x := by
    rw [← hds,hd hx,hc (Nat.mod_lt _ (by decide)),hc (Nat.mod_lt _ (by decide)),mixed]
  -- each lane is written once, by the pass of its own column and row
  have hrun := upTo_invariant (n := 5) (s := a) (f := fun x a => upTo 5 a fun y a =>
      a.write (x + 5*y) (B.xor (a.read (x + 5*y)) (d.read x)))
    (P := fun m v => ∀ j < 25, v.read j =
      if j % 5 < m then B.xor (a.read j) (mixed B a (j % 5)) else a.read j)
    (fun j _ => (if_neg (Nat.not_lt_zero _)).symm) fun x hx v hP => by
      have hin := upTo_invariant (n := 5) (s := v) (f := fun y a =>
          a.write (x + 5*y) (B.xor (a.read (x + 5*y)) (d.read x)))
        (P := fun m w => ∀ j < 25, w.read j =
          if j % 5 < x ∨ j % 5 = x ∧ j / 5 < m then B.xor (a.read j) (mixed B a (j % 5))
          else a.read j)
        (fun j hj => by
          rw [hP j hj]
          simp only [Nat.not_lt_zero,and_false,or_false]) fun y hy w hQ j hj => by
          obtain rfl | hne := eq_or_ne (x + 5*y) j
          · rw [Cells.read_write_self _ _ hj,hQ _ hj,if_neg (by omega),if_pos (by omega),hd hx,
              show (x + 5*y) % 5 = x by omega]
          · rw [Cells.read_write_ne _ _ hne,hQ j hj]
            have : j % 5 < x ∨ j % 5 = x ∧ j / 5 < y ↔ j % 5 < x ∨ j % 5 = x ∧ j / 5 < y + 1 := by
              omega
            simp only [this]
      intro j hj
      rw [hin j hj]
      have : j % 5 < x ∨ j % 5 = x ∧ j / 5 < 5 ↔ j % 5 < x + 1 := by omega
      simp only [this]
  rw [hrun i hi,if_pos (Nat.mod_lt _ (by decide))]

def origin (j : Nat) : Nat := (3*(j/5) + j % 5) % 5 + 5*(j % 5)

theorem read_rhoPi (a : Cells L 25) {j : Nat} (hj : j < 25) :
    (rhoPi B rho a).read j = B.rotl (a.read (origin j)) (rho (origin j)) := by
  have hplace {x y : Nat} (hx : x < 5) (hy : y < 5) :
      y + 5*((2*x + 3*y) % 5) = j ↔ x = (3*(j/5) + j % 5) % 5 ∧ y = j % 5 := by
    have hinverse : ∀ x < 5, ∀ y < 5, ∀ q < 5,(2*x + 3*y) % 5 = q ↔ x = (3*q + y) % 5 := by decide
    have hrow : y + 5*((2*x + 3*y) % 5) = j ↔ (2*x + 3*y) % 5 = j/5 ∧ y = j % 5 := by omega
    rw [hrow,hinverse x hx y hy (j/5) (by omega)]
    exact and_congr_left fun h => by rw [h]
  refine upTo_sets (Cells.read · j) _ (i := (3*(j/5) + j % 5) % 5) (Nat.mod_lt _ (by decide))
    (fun b => upTo_sets (Cells.read · j) _ (i := j % 5) (Nat.mod_lt _ (by decide)) (fun b => ?_)
      fun y _ hy b => ?_) fun x hx hx' b => upTo_keep (Cells.read · j) _ fun y hy b => ?_
  · rw [(hplace (Nat.mod_lt _ (by decide)) (Nat.mod_lt _ (by decide))).mpr ⟨rfl,rfl⟩,
      Cells.read_write_self _ _ hj,origin]
  · refine Cells.read_write_ne _ _ fun h => ?_
    have := (hplace (Nat.mod_lt _ (by decide)) hy).mp h
    omega
  · refine Cells.read_write_ne _ _ fun h => ?_
    have := (hplace hx' hy).mp h
    omega

theorem read_chi (a b : Cells L 25) {j : Nat} (hj : j < 25) :
    (chi B a b).read j = B.xor (b.read j) (B.and (B.not (b.read (5*(j/5) + (j % 5 + 1) % 5)))
      (b.read (5*(j/5) + (j % 5 + 2) % 5))) := by
  have hplace : 5*(j/5) + j % 5 = j := Nat.div_add_mod j 5
  refine upTo_sets (Cells.read · j) _ (i := j/5) (by omega)
    (fun a => upTo_sets (Cells.read · j) _ (i := j % 5) (Nat.mod_lt _ (by decide)) (fun a => ?_)
      fun x _ hx a => Cells.read_write_ne _ _ (by omega)) fun y hy _ a =>
        upTo_keep (Cells.read · j) _ fun x hx a => Cells.read_write_ne _ _ (by omega)
  rw [hplace,Cells.read_write_self _ _ hj]

def turned (B : Lanes L) (rho : Nat → Nat) (a : Cells L 25) (j : Nat) : L :=
  B.rotl (B.xor (a.read (origin j)) (mixed B a (origin j % 5))) (rho (origin j))

theorem read_round (a : Cells L 25) (rc : L) {j : Nat} (hj : j < 25) :
    let lane := B.xor (turned B rho a j) (B.and (B.not (turned B rho a (5*(j/5) + (j % 5 + 1) % 5)))
      (turned B rho a (5*(j/5) + (j % 5 + 2) % 5)))
    (round B rho a rc).read j = if j = 0 then B.xor lane rc else lane := by
  intro lane
  have hturned {i : Nat} (hi : i < 25) :
      (rhoPi B rho (theta B a)).read i = turned B rho a i := by
    have horigin : origin i < 25 := by
      unfold origin
      omega
    rw [read_rhoPi _ hi,read_theta _ horigin,turned]
  have hlane : (chi B (theta B a) (rhoPi B rho (theta B a))).read j = lane := by
    rw [read_chi _ _ hj,hturned hj,hturned (by omega),hturned (by omega)]
  rw [round]
  split
  · next h =>
    subst h
    rw [Cells.read_write_self _ _ hj,hlane]
  · next h => rw [Cells.read_write_ne _ _ (Ne.symm h),hlane]

end

end Keccak
