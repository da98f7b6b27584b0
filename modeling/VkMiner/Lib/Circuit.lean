import Mathlib.Logic.Function.Basic
set_option autoImplicit false

/-! Straight-line programs of gates: wires that have numbers, and assignments to them, one after the
other. -/

inductive Gate where
  | wire (n : Nat)
  | xor (a b : Gate)
  | and (a b : Gate)
  | not (a : Gate)
  deriving DecidableEq

namespace Gate

instance : XorOp Gate := ⟨.xor⟩

instance : AndOp Gate := ⟨.and⟩

instance : Complement Gate := ⟨.not⟩

end Gate

namespace Circuit

/-- What the gates come to on values of a type. -/
structure Logic (α : Type) where
  xor : α → α → α
  and : α → α → α
  not : α → α

def words (w : Nat) : Logic (BitVec w) := ⟨(· ^^^ ·),(· &&& ·),(~~~·)⟩

def bools : Logic Bool := ⟨Bool.xor,Bool.and,Bool.not⟩

variable {α β : Type}

def eval (L : Logic α) (env : Nat → α) : Gate → α
  | .wire n => env n
  | .xor a b => L.xor (eval L env a) (eval L env b)
  | .and a b => L.and (eval L env a) (eval L env b)
  | .not a => L.not (eval L env a)

def put (env : Nat → α) (n : Nat) (x : α) (i : Nat) : α := if i = n then x else env i

/-- The wire that is given a value, and the value. -/
structure Assign where
  wire : Nat
  gate : Gate

/-- `wire = gate;` -/
def assign (target gate : Gate) : Assign :=
  match target with
  | .wire n => ⟨n,gate⟩
  | _ => ⟨0,gate⟩

def run (L : Logic α) : List Assign → (Nat → α) → Nat → α
  | [],env => env
  | a :: rest,env => run L rest (put env a.wire (eval L env a.gate))

structure Hom (L : Logic α) (M : Logic β) (φ : α → β) : Prop where
  xor : ∀ a b,φ (L.xor a b) = M.xor (φ a) (φ b)
  and : ∀ a b,φ (L.and a b) = M.and (φ a) (φ b)
  not : ∀ a,φ (L.not a) = M.not (φ a)

variable {L : Logic α} {M : Logic β} {φ : α → β}

theorem Hom.eval (h : Hom L M φ) (env : Nat → α) (g : Gate) :
    φ (eval L env g) = Circuit.eval M (fun n => φ (env n)) g := by
  induction g with
  | wire n => rfl
  | xor a b iha ihb => rw [Circuit.eval,h.xor,iha,ihb,Circuit.eval]
  | and a b iha ihb => rw [Circuit.eval,h.and,iha,ihb,Circuit.eval]
  | not a ih => rw [Circuit.eval,h.not,ih,Circuit.eval]

theorem map_put (φ : α → β) (env : Nat → α) (n : Nat) (x : α) :
    (fun i => φ (put env n x i)) = put (fun i => φ (env i)) n (φ x) := by
  funext i
  simp only [put]
  split <;> rfl

theorem Hom.run (h : Hom L M φ) (p : List Assign) (env : Nat → α) (n : Nat) :
    φ (run L p env n) = Circuit.run M p (fun n => φ (env n)) n := by
  induction p generalizing env with
  | nil => rfl
  | cons a rest ih => rw [Circuit.run,Circuit.run,ih,map_put,h.eval]

theorem bit_hom {w i : Nat} (hi : i < w) : Hom (words w) bools (·.getLsbD i) where
  xor _ _ := BitVec.getLsbD_xor
  and _ _ := BitVec.getLsbD_and
  not a := by
    show (~~~a).getLsbD i = !a.getLsbD i
    rw [BitVec.getLsbD_not,decide_eq_true hi,Bool.true_and]

end Circuit
