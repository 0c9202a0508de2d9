import Mathlib.Data.List.TakeDrop
import Mathlib.Data.List.TakeWhile

/-! Cutting a list at the first place where an element stands, and at the first place where two
elements stand next to each other. -/
namespace Iii.Lib
variable {α : Type} [DecidableEq α]

theorem span_ne_append {c : α} {before : List α} (h : c ∉ before) (rest : List α) :
    (before ++ c :: rest).span (· ≠ c) = (before, c :: rest) := by
  have hne : ∀ a ∈ before, decide (a ≠ c) = true := fun a ha => by simpa using ne_of_mem_of_not_mem ha h
  rw [List.span_eq_takeWhile_dropWhile, List.takeWhile_append_of_pos hne, List.dropWhile_append_of_pos hne]
  simp

theorem span_ne_of_not_mem {c : α} {l : List α} (h : c ∉ l) : l.span (· ≠ c) = (l, []) := by
  have hne : ∀ a ∈ l, decide (a ≠ c) = true := fun a ha => by simpa using ne_of_mem_of_not_mem ha h
  rw [List.span_eq_takeWhile_dropWhile, List.takeWhile_eq_self_iff.mpr hne, List.dropWhile_eq_nil_iff.mpr hne]

/-- The element is not there, or the list is cut at its first place. -/
theorem exists_cut (c : α) (l : List α) : c ∉ l ∨ ∃ before rest, c ∉ before ∧ l = before ++ c :: rest := by
  by_cases h : c ∈ l
  · obtain ⟨before, rest, hl, hbefore⟩ := List.eq_append_cons_of_mem h
    exact .inr ⟨before, rest, hbefore, hl⟩
  · exact .inl h

/-- `split_once` of two elements: what stands before their first place, and what after. -/
def splitPair (c d : α) : List α → Option (List α × List α)
  | a :: b :: rest =>
    if a = c ∧ b = d then some ([], rest) else (splitPair c d (b :: rest)).map fun p => (a :: p.1, p.2)
  | _ => none

theorem splitPair_eq_some {c d : α} {l before after : List α} (h : splitPair c d l = some (before, after)) :
    l = before ++ c :: d :: after := by
  fun_induction splitPair c d l generalizing before after with
  | case1 a b rest heq =>
    obtain ⟨rfl, rfl⟩ := heq
    cases h
    rfl
  | case2 a b rest heq ih =>
    obtain ⟨p, hp, hcut⟩ := Option.map_eq_some_iff.mp h
    cases hcut
    rw [ih hp, List.cons_append]
  | case3 l hl => cases h

/-- Nothing before the first place of the separator holds its first element. -/
theorem splitPair_append {c d : α} {before : List α} (h : c ∉ before) (after : List α) :
    splitPair c d (before ++ c :: d :: after) = some (before, after) := by
  induction before with
  | nil => exact if_pos ⟨rfl, rfl⟩
  | cons a before ih =>
    have hne : a ≠ c := fun heq => h (heq ▸ List.mem_cons_self)
    have hrest : splitPair c d (before ++ c :: d :: after) = some (before, after) :=
      ih fun hmem => h (List.mem_cons_of_mem _ hmem)
    cases before <;>
      exact (if_neg fun heq => hne heq.1).trans (congrArg (Option.map fun p => (a :: p.1, p.2)) hrest)

theorem splitPair_of_not_mem {c d : α} {l : List α} (h : c ∉ l) : splitPair c d l = none := by
  cases hsplit : splitPair c d l with
  | none => rfl
  | some p =>
    refine absurd ?_ h
    rw [splitPair_eq_some hsplit]
    simp

/-- `split` of two elements: what stands between their places, which do not overlap. -/
def splitPairs (c d : α) : List α → List (List α)
  | a :: b :: rest =>
    if a = c ∧ b = d then [] :: splitPairs c d rest
    else
      match splitPairs c d (b :: rest) with
      | part :: parts => (a :: part) :: parts
      | [] => [[a]]
  | l => [l]

/-- The first part stands before the first place, and the others are those of what stands after it. -/
theorem splitPairs_eq (c d : α) (l : List α) : splitPairs c d l =
    match splitPair c d l with
    | some (before, after) => before :: splitPairs c d after
    | none => [l] := by
  fun_induction splitPair c d l with
  | case1 a b rest heq => rw [splitPairs, if_pos heq]
  | case2 a b rest hne ih =>
    rw [splitPairs, if_neg hne, ih]
    cases splitPair c d (b :: rest) <;> rfl
  | case3 l hl =>
    rw [splitPairs]
    exact hl

theorem splitPairs_ne_nil (c d : α) (l : List α) : splitPairs c d l ≠ [] := by
  rw [splitPairs_eq]
  split <;> exact List.cons_ne_nil _ _

/-- The parts with the two elements between them are the list. -/
theorem intercalate_splitPairs (c d : α) (l : List α) : [c, d].intercalate (splitPairs c d l) = l := by
  fun_induction splitPairs c d l with
  | case1 a b rest heq ih =>
    obtain ⟨rfl, rfl⟩ := heq
    obtain ⟨part, parts, hparts⟩ := List.exists_cons_of_ne_nil (splitPairs_ne_nil a b rest)
    rw [hparts] at ih ⊢
    rw [List.intercalate_cons_cons, ih]
    rfl
  | case2 a b rest hne part parts hparts ih =>
    rw [hparts] at ih
    rw [← ih]
    cases parts <;> simp [List.intercalate]
  | case3 a b rest hne hnil ih => exact absurd hnil (splitPairs_ne_nil c d _)
  | case4 l hl => simp [List.intercalate]

end Iii.Lib
