import Mathlib.Logic.Basic
set_option autoImplicit false

/-! Guarded runs of a labelled, partial step function. A step that is not
enabled returns `none`; the guard picks out the runs a result is about. -/

namespace Runs

variable {σ ε τ δ : Type*}

/-- The states reached from `s₀` by steps that each meet the guard. -/
inductive Reach (step : σ → ε → Option σ) (ok : σ → ε → Prop) (s₀ : σ) : σ → Prop where
  | start : Reach step ok s₀ s₀
  | next {s s' : σ} {e : ε} :
      Reach step ok s₀ s → ok s e → step s e = some s' → Reach step ok s₀ s'

/-- The guard that admits every step. -/
def free (_ : σ) (_ : ε) : Prop := True

instance (s : σ) (e : ε) : Decidable (free s e) := isTrue trivial

variable {step : σ → ε → Option σ} {ok ok' : σ → ε → Prop} {s₀ s s' : σ} {e : ε}

theorem Reach.mono (hk : ∀ s e, ok s e → ok' s e) (h : Reach step ok s₀ s) :
    Reach step ok' s₀ s := by
  induction h with
  | start => exact .start
  | next _ ho hs ih => exact .next ih (hk _ _ ho) hs

theorem Reach.trans {s₁ s₂ : σ} (h : Reach step ok s₀ s₁) (k : Reach step ok s₁ s₂) :
    Reach step ok s₀ s₂ := by
  induction k with
  | start => exact h
  | next _ ho hs ih => exact .next ih ho hs

theorem Reach.single (ho : ok s e) (hs : step s e = some s') : Reach step ok s s' :=
  .next .start ho hs

/-- What holds at the start and is kept by every guarded step holds in every
state of every guarded run. -/
theorem Reach.invariant {I : σ → Prop} (h₀ : I s₀)
    (hstep : ∀ s e s', I s → ok s e → step s e = some s' → I s')
    (h : Reach step ok s₀ s) : I s := by
  induction h with
  | start => exact h₀
  | next _ ho hs ih => exact hstep _ _ _ ih ho hs

def attempts (step : σ → ε → Option σ) : σ → List ε → σ
  | s, [] => s
  | s, e :: es => attempts step ((step s e).getD s) es

theorem Reach.attempts {es : List ε} (ho : ∀ e ∈ es, ∀ s, ok s e) (h : Reach step ok s₀ s) :
    Reach step ok s₀ (attempts step s es) := by
  induction es generalizing s with
  | nil => exact h
  | cons e es ih =>
    refine ih (fun e' he => ho e' (.tail _ he)) ?_
    cases hs : step s e with
    | none => exact h
    | some s' => exact .next h (ho e (.head _) s) hs

theorem attempts_keep {β : Type*} (look : σ → β) {es : List ε}
    (h : ∀ e ∈ es, ∀ s s', step s e = some s' → look s' = look s) (s : σ) :
    look (attempts step s es) = look s := by
  induction es generalizing s with
  | nil => rfl
  | cons e es ih =>
    refine (ih (fun e' he => h e' (.tail _ he)) _).trans ?_
    cases hs : step s e with
    | none => rfl
    | some s' => exact h e (.head _) s s' hs

def follow (step : σ → ε → Option σ) (ok : σ → ε → Prop) [∀ s e, Decidable (ok s e)] :
    σ → List ε → Option σ
  | s, [] => some s
  | s, e :: es => if ok s e then (step s e).bind (fun s' => follow step ok s' es) else none

theorem Reach.of_follow [∀ s e, Decidable (ok s e)] {es : List ε}
    (h : follow step ok s es = some s') : Reach step ok s s' := by
  induction es generalizing s with
  | nil =>
    simp only [follow,Option.some.injEq] at h
    exact h ▸ .start
  | cons e es ih =>
    by_cases ho : ok s e
    · cases hs : step s e with
      | none => simp [follow,ho,hs] at h
      | some t =>
        simp only [follow,ho,if_true,hs,Option.bind_some] at h
        exact (Reach.single ho hs).trans (ih h)
    · simp [follow,ho] at h

theorem reach_of_any (step : σ → ε → Option σ) (ok : σ → ε → Prop)
    [∀ s e, Decidable (ok s e)] (s : σ) (es : List ε) (P : σ → Prop) [DecidablePred P]
    (h : (follow step ok s es).any (fun t => decide (P t)) = true) :
    ∃ t, Reach step ok s t ∧ P t := by
  obtain ⟨t,ht,hp⟩ := (Option.any_eq_true _ _).mp h
  exact ⟨t,.of_follow ht,of_decide_eq_true hp⟩

end Runs
