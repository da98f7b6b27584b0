import Mathlib.Logic.Function.Iterate
set_option autoImplicit false

/-! A mix that keeps the blocks it passes through and then goes back to them, in an order that the
blocks themselves decide. -/

/-- How a block is mixed, laid onto another, and made a number. -/
structure Romix (β : Type) where
  mix : β → β
  lay : β → β → β
  index : β → Nat

namespace Romix

variable {β γ : Type} (M : Romix β) {N : Romix γ} {φ : β → γ}

def kept (b : β) : Nat → β
  | 0 => b
  | i + 1 => M.mix (kept b i)

/-- The block after so many passes of the second, where the first made `n`. -/
def back (n : Nat) (b : β) : Nat → β
  | 0 => M.kept b n
  | i + 1 =>
    let x := back n b i
    M.mix (M.lay x (M.kept b (M.index x)))

def out (n : Nat) (b : β) : β := M.back n b n

/-- A map of the blocks that both mixes agree on. -/
structure Hom (M : Romix β) (N : Romix γ) (φ : β → γ) : Prop where
  mix : ∀ x,φ (M.mix x) = N.mix (φ x)
  lay : ∀ x y,φ (M.lay x y) = N.lay (φ x) (φ y)
  index : ∀ x,M.index x = N.index (φ x)

variable {M}

theorem Hom.kept (h : Hom M N φ) (b : β) (i : Nat) : φ (M.kept b i) = N.kept (φ b) i := by
  induction i with
  | zero => rfl
  | succ i ih => rw [Romix.kept,Romix.kept,h.mix,ih]

theorem Hom.back (h : Hom M N φ) (n : Nat) (b : β) (i : Nat) :
    φ (M.back n b i) = N.back n (φ b) i := by
  induction i with
  | zero => exact h.kept b n
  | succ i ih => simp only [Romix.back,h.mix,h.lay,h.kept,h.index,ih]

theorem Hom.out (h : Hom M N φ) (n : Nat) (b : β) : φ (M.out n b) = N.out n (φ b) := h.back n b n

end Romix
