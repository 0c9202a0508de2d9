import Mathlib.Logic.Relation

/-! Transition systems and their invariants.

A system is a set of initial states and a step relation; tasks that interleave are one
system whose step is a step of any of them. What holds at the start and survives a step
holds in every reachable state. -/
namespace Iii.Lib

structure System (σ : Type) where
  Init : σ → Prop
  Step : σ → σ → Prop

namespace System
variable {σ τ : Type} {S : System σ}

def Reachable (S : System σ) (s : σ) : Prop := ∃ s₀, S.Init s₀ ∧ Relation.ReflTransGen S.Step s₀ s

theorem Reachable.init {s : σ} (h : S.Init s) : S.Reachable s := ⟨s, h, .refl⟩

theorem Reachable.step {s s' : σ} (h : S.Reachable s) (hstep : S.Step s s') : S.Reachable s' := by
  obtain ⟨s₀, hinit, hrun⟩ := h
  exact ⟨s₀, hinit, hrun.tail hstep⟩

/-- The invariant rule. The step may also use what is known of every reachable state. -/
theorem Reachable.invariant {I : σ → Prop} (init : ∀ s, S.Init s → I s)
    (step : ∀ s s', S.Reachable s → I s → S.Step s s' → I s') {s : σ} (h : S.Reachable s) : I s := by
  obtain ⟨s₀, hinit, hrun⟩ := h
  induction hrun with
  | refl => exact init s₀ hinit
  | tail hrun hstep ih => exact step _ _ ⟨s₀, hinit, hrun⟩ ih hstep

end System

end Iii.Lib
