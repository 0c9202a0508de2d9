import Mathlib.Data.List.Basic

/-! Machines that answer.

A step takes an action and gives an answer. A run is its trace, the last step first. -/
namespace Iii.Lib

structure Machine (σ α ρ : Type) where
  Step : σ → α → ρ → σ → Prop

namespace Machine
variable {σ α ρ : Type} {M : Machine σ α ρ} {s s' s'' : σ} {tr tr' : List (α × ρ)}

inductive Run (M : Machine σ α ρ) (s : σ) : List (α × ρ) → σ → Prop where
  | nil : M.Run s [] s
  | step {tr : List (α × ρ)} {s' s'' : σ} {a : α} {r : ρ} (h : M.Run s tr s') (hstep : M.Step s' a r s'') :
      M.Run s ((a, r) :: tr) s''

/-- Only the steps that meet a condition. -/
def only (M : Machine σ α ρ) (C : σ → α → Prop) : Machine σ α ρ where
  Step := fun s a r s' => C s a ∧ M.Step s a r s'

theorem Run.append (h : M.Run s tr s') (h' : M.Run s' tr' s'') : M.Run s (tr' ++ tr) s'' := by
  induction h' with
  | nil => exact h
  | step _ hstep ih => exact ih.step hstep

/-- The actions one after the other, with the trace. -/
def exec (step : σ → α → Option (σ × ρ)) (s : σ) : List α → Option (List (α × ρ) × σ)
  | [] => some ([], s)
  | a :: acts => (step s a).bind fun p => (exec step p.1 acts).map fun q => (q.1 ++ [(a, p.2)], q.2)

theorem Run.of_exec {step : σ → α → Option (σ × ρ)} (hstep : ∀ {s a s' r}, step s a = some (s', r) → M.Step s a r s')
    {acts : List α} (h : exec step s acts = some (tr, s')) : M.Run s tr s' := by
  induction acts generalizing s tr with
  | nil =>
    cases h
    exact .nil
  | cons a acts ih =>
    obtain ⟨⟨s₁, r⟩, h₁, hrest⟩ := Option.bind_eq_some_iff.mp h
    obtain ⟨⟨tr', s₂⟩, hexec, heq⟩ := Option.map_eq_some_iff.mp hrest
    cases heq
    exact (Run.nil.step (hstep h₁)).append (ih hexec)

/-- What every step keeps, a run keeps. -/
theorem Run.invariant {I : σ → Prop} (h : M.Run s tr s') (hs : I s)
    (step : ∀ {s a r s'}, I s → M.Step s a r s' → I s') : I s' := by
  induction h with
  | nil => exact hs
  | step _ hstep ih => exact step ih hstep

end Machine

end Iii.Lib
