import Mathlib.Logic.Basic
set_option autoImplicit false

/-! The body of a loop in pieces: each goes on to the next, round again, or out of the loop. -/

inductive LoopFlow (σ : Type*) where
  | on (s : σ)
  | again (s : σ)
  | out (s : σ)

namespace LoopFlow

variable {σ : Type*} {mid mid' left left' : σ → Prop} {f : LoopFlow σ} {g : σ → LoopFlow σ}

def bind (f : LoopFlow σ) (g : σ → LoopFlow σ) : LoopFlow σ :=
  match f with
  | on s => g s
  | again s => again s
  | out s => out s

def state : LoopFlow σ → σ
  | on s => s
  | again s => s
  | out s => s

/-- `mid` holds where the piece goes on, and `left` where the pass ends with it. -/
def Ensures (mid left : σ → Prop) : LoopFlow σ → Prop
  | on s => mid s
  | again s => left s
  | out s => left s

theorem Ensures.mono (h : f.Ensures mid left) (hm : ∀ s, mid s → mid' s)
    (hl : ∀ s, left s → left' s) : f.Ensures mid' left' := by
  cases f with
  | on s => exact hm s h
  | again s => exact hl s h
  | out s => exact hl s h

theorem Ensures.bind (h : f.Ensures mid left) (hg : ∀ s, mid s → (g s).Ensures mid' left) :
    (f.bind g).Ensures mid' left := by
  cases f with
  | on s => exact hg s h
  | again s => exact h
  | out s => exact h

theorem Ensures.state (h : f.Ensures left left) : left f.state := by
  cases f with
  | on s => exact h
  | again s => exact h
  | out s => exact h

theorem Ensures.ite {p : Prop} [Decidable p] {f' : LoopFlow σ} (h : p → f.Ensures mid left)
    (h' : ¬p → f'.Ensures mid left) : (if p then f else f').Ensures mid left := by
  split
  · exact h (by assumption)
  · exact h' (by assumption)

end LoopFlow
