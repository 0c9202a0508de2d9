import Mathlib.Data.Set.Finite.Basic
import Iii.Lib.Graph

/-! Graphs without cycles.

A graph is given by what each node points to. Along its edges a finite graph without cycles has an
induction, and in an order with dependencies first every edge goes back. -/
namespace Iii.Lib
variable {κ : Type}

/-- `a` points to `b`. -/
def Waits (deps : κ → List κ) (a b : κ) : Prop := b ∈ deps a

def Acyclic (deps : κ → List κ) : Prop := ∀ k, ¬ Relation.TransGen (Waits deps) k k

/-- A walk along the edges that ends where it starts. -/
structure IsCycle (deps : κ → List κ) (cycle : List κ) : Prop where
  chain : cycle.IsChain (Waits deps)
  length : 2 ≤ cycle.length
  closed : cycle.head? = cycle.getLast?

theorem transGen_of_chain {r : κ → κ → Prop} {a : κ} {l : List κ} (h : (a :: l).IsChain r) {b : κ}
    (hb : b ∈ l) : Relation.TransGen r a b := by
  induction l generalizing a with
  | nil => cases hb
  | cons c l ih =>
    obtain ⟨hac, hrest⟩ := List.isChain_cons_cons.mp h
    rcases List.mem_cons.mp hb with rfl | hb
    · exact .single hac
    · exact .head hac (ih hrest hb)

theorem IsCycle.not_acyclic {deps : κ → List κ} {cycle : List κ} (h : IsCycle deps cycle) : ¬ Acyclic deps := by
  intro hacyclic
  obtain ⟨hchain, hlength, hclosed⟩ := h
  match cycle, hlength with
  | a :: b :: rest, _ =>
    have hlast : (a :: b :: rest).getLast? = some a := hclosed.symm
    have hmem : a ∈ b :: rest := by
      rw [List.getLast?_cons_cons] at hlast
      exact List.mem_of_getLast? hlast
    exact hacyclic a (transGen_of_chain hchain hmem)

/-- What holds of a node when it holds of all that the node points to holds everywhere. -/
theorem Acyclic.induction {deps : κ → List κ} (h : Acyclic deps) {nodes : List κ}
    (hclosed : ∀ k ∈ nodes, ∀ d ∈ deps k, d ∈ nodes) {P : κ → Prop}
    (step : ∀ k ∈ nodes, (∀ d ∈ deps k, P d) → P k) : ∀ k ∈ nodes, P k := by
  let r : {k // k ∈ nodes} → {k // k ∈ nodes} → Prop := fun a b => Relation.TransGen (Waits deps) b.1 a.1
  have htrans : IsTrans {k // k ∈ nodes} r := ⟨fun a b c hab hbc => hbc.trans hab⟩
  have hirrefl : Std.Irrefl r := ⟨fun a => h a.1⟩
  have hfinite : Finite {k // k ∈ nodes} := List.finite_toSet nodes
  have hwf : WellFounded r := Finite.wellFounded_of_trans_of_irrefl r
  intro k hk
  refine hwf.induction (C := fun k => P k.1) ⟨k, hk⟩ ?_
  intro x ih
  exact step x.1 x.2 fun d hd => ih ⟨d, hclosed x.1 x.2 d hd⟩ (.single hd)

section Order
variable [DecidableEq κ] {deps : κ → List κ} {l : List κ}

/-- Every edge goes back in an order with dependencies first. -/
theorem DependencyFirst.idxOf_lt (h : DependencyFirst deps l) {k d : κ} (hk : k ∈ l) (hd : d ∈ deps k) (hdl : d ∈ l) :
    l.idxOf d < l.idxOf k := by
  obtain ⟨front, back, rfl, hfront⟩ := List.eq_append_cons_of_mem hk
  have hmem := h.before rfl hd hdl
  rw [List.idxOf_append_of_mem hmem, List.idxOf_append_of_notMem hfront, List.idxOf_cons_self, Nat.add_zero]
  exact List.idxOf_lt_length_iff.mpr hmem

/-- When the order holds all that its nodes point to, so do the paths. -/
theorem DependencyFirst.idxOf_lt_of_transGen (h : DependencyFirst deps l) (hclosed : ∀ k ∈ l, ∀ d ∈ deps k, d ∈ l)
    {k d : κ} (hk : k ∈ l) (hpath : Relation.TransGen (Waits deps) k d) : d ∈ l ∧ l.idxOf d < l.idxOf k := by
  induction hpath with
  | single hstep => exact ⟨hclosed k hk _ hstep, h.idxOf_lt hk hstep (hclosed k hk _ hstep)⟩
  | tail _ hstep ih =>
    have hmem := hclosed _ ih.1 _ hstep
    exact ⟨hmem, (h.idxOf_lt ih.1 hstep hmem).trans ih.2⟩

end Order

end Iii.Lib
