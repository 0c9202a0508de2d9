import Mathlib.Data.List.Basic

/-! The places where a value stands in a list, and the list without some of its places.

Places are counted from a number `k`, so that the rest of a list keeps its places. -/
namespace Iii.Lib
variable {α : Type}

/-- What is left when some places are left out. -/
def without (gone : List Nat) : Nat → List α → List α
  | _, [] => []
  | k, a :: rest => if k ∈ gone then without gone (k + 1) rest else a :: without gone (k + 1) rest

theorem without_cons (gone : List Nat) (k : Nat) (a : α) (rest : List α) : without gone k (a :: rest) =
    if k ∈ gone then without gone (k + 1) rest else a :: without gone (k + 1) rest := rfl

theorem without_append (gone : List Nat) (k : Nat) (l l' : List α) :
    without gone k (l ++ l') = without gone k l ++ without gone (k + l.length) l' := by
  induction l generalizing k with
  | nil => rfl
  | cons a rest ih =>
    rw [List.cons_append, without_cons, without_cons, ih, List.length_cons, Nat.add_right_comm, Nat.add_assoc]
    split <;> rfl

/-- Places that are not in the list leave it whole. -/
theorem without_eq_self {gone : List Nat} {k : Nat} {l : List α} (h : ∀ i ∈ gone, i < k ∨ k + l.length ≤ i) :
    without gone k l = l := by
  induction l generalizing k with
  | nil => rfl
  | cons a rest ih =>
    have hk : k ∉ gone := by
      intro hmem
      have hlt := h k hmem
      rw [List.length_cons] at hlt
      omega
    rw [without_cons, if_neg hk, ih]
    intro i hi
    have hlt := h i hi
    rw [List.length_cons] at hlt
    omega

theorem without_congr {gone gone' : List Nat} {k : Nat} {l : List α}
    (h : ∀ i, k ≤ i → i < k + l.length → (i ∈ gone ↔ i ∈ gone')) : without gone k l = without gone' k l := by
  induction l generalizing k with
  | nil => rfl
  | cons a rest ih =>
    have hk := h k (Nat.le_refl k) (by rw [List.length_cons]; omega)
    have hrest : without gone (k + 1) rest = without gone' (k + 1) rest :=
      ih fun i hle hlt => h i (by omega) (by rw [List.length_cons]; omega)
    rw [without_cons, without_cons, hrest]
    by_cases hmem : k ∈ gone
    · rw [if_pos hmem, if_pos (hk.mp hmem)]
    · rw [if_neg hmem, if_neg fun hmem' => hmem (hk.mpr hmem')]

/-- Items taken out from the back to the front, each by its place. -/
theorem foldl_eraseIdx {gone : List Nat} (hgone : gone.Pairwise (· > ·)) (l : List α) :
    gone.foldl List.eraseIdx l = without gone 0 l := by
  induction gone generalizing l with
  | nil => exact (without_eq_self fun _ hi => absurd hi List.not_mem_nil).symm
  | cons i gone ih =>
    obtain ⟨hfirst, hrest⟩ := List.pairwise_cons.mp hgone
    rw [List.foldl_cons, ih hrest]
    by_cases hi : i < l.length
    · -- what stands before the place keeps its place, and nothing is taken out behind it
      have hlen : (l.take i).length = i := by rw [List.length_take]; omega
      have hbehind : ∀ k, i < k → ∀ l' : List α, without (i :: gone) k l' = l' ∧ without gone (k - 1) l' = l' := by
        intro k hk l'
        constructor
        · refine without_eq_self fun j hj => .inl ?_
          rcases List.mem_cons.mp hj with rfl | hj
          · exact hk
          · exact Nat.lt_trans (hfirst j hj) hk
        · refine without_eq_self fun j hj => .inl ?_
          have hlt := hfirst j hj
          omega
      have hfront : without (i :: gone) 0 (l.take i) = without gone 0 (l.take i) := by
        apply without_congr
        intro j _ hj
        rw [hlen] at hj
        rw [List.mem_cons]
        constructor
        · intro hmem
          exact hmem.resolve_left (by omega)
        · exact .inr
      calc without gone 0 (l.eraseIdx i)
          = without gone 0 (l.take i) ++ without gone (i + 1 - 1) (l.drop (i + 1)) := by
            rw [List.eraseIdx_eq_take_drop_succ, without_append, hlen, Nat.zero_add, Nat.add_sub_cancel]
        _ = without (i :: gone) 0 (l.take i) ++ without (i :: gone) (i + 1) (l.drop (i + 1)) := by
            rw [hfront, (hbehind (i + 1) (Nat.lt_succ_self i) _).1, (hbehind (i + 1) (Nat.lt_succ_self i) _).2]
        _ = without (i :: gone) 0 (l.take i ++ l[i] :: l.drop (i + 1)) := by
            rw [without_append, hlen, Nat.zero_add, without_cons, if_pos List.mem_cons_self]
        _ = without (i :: gone) 0 l := by rw [List.getElem_cons_drop, List.take_append_drop]
    · rw [List.eraseIdx_of_length_le (Nat.le_of_not_lt hi)]
      apply without_congr
      intro j _ hj
      rw [List.mem_cons]
      constructor
      · exact .inr
      · intro hmem
        exact hmem.resolve_left (by omega)

section
variable [DecidableEq α] {value : α}

/-- The places where a value stands, in order. -/
def occurrences (value : α) : Nat → List α → List Nat
  | _, [] => []
  | k, a :: rest => if a = value then k :: occurrences value (k + 1) rest else occurrences value (k + 1) rest

theorem occurrences_cons (k : Nat) (a : α) (rest : List α) : occurrences value k (a :: rest) =
    if a = value then k :: occurrences value (k + 1) rest else occurrences value (k + 1) rest := rfl

theorem le_of_mem_occurrences {k i : Nat} {l : List α} (h : i ∈ occurrences value k l) : k ≤ i := by
  induction l generalizing k with
  | nil => cases h
  | cons a rest ih =>
    rw [occurrences_cons] at h
    split at h
    · rcases List.mem_cons.mp h with rfl | h
      · exact Nat.le_refl _
      · exact Nat.le_of_succ_le (ih h)
    · exact Nat.le_of_succ_le (ih h)

theorem occurrences_ascend (k : Nat) (l : List α) : (occurrences value k l).Pairwise (· < ·) := by
  induction l generalizing k with
  | nil => exact .nil
  | cons a rest ih =>
    rw [occurrences_cons]
    split
    · exact List.pairwise_cons.mpr ⟨fun i hi => le_of_mem_occurrences hi, ih (k + 1)⟩
    · exact ih (k + 1)

theorem occurrences_append (k : Nat) (l l' : List α) :
    occurrences value k (l ++ l') = occurrences value k l ++ occurrences value (k + l.length) l' := by
  induction l generalizing k with
  | nil => rfl
  | cons a rest ih =>
    rw [List.cons_append, occurrences_cons, occurrences_cons, ih, List.length_cons, Nat.add_right_comm, Nat.add_assoc]
    split <;> rfl

/-- Without all the places of a value there are the items that are not the value. -/
theorem without_occurrences (k : Nat) (l : List α) :
    without (occurrences value k l) k l = l.filter (· ≠ value) := by
  induction l generalizing k with
  | nil => rfl
  | cons a rest ih =>
    by_cases ha : a = value
    · have hrest : without (k :: occurrences value (k + 1) rest) (k + 1) rest =
          without (occurrences value (k + 1) rest) (k + 1) rest := by
        apply without_congr
        intro i hle _
        rw [List.mem_cons]
        constructor
        · intro hmem
          exact hmem.resolve_left (by omega)
        · exact .inr
      rw [occurrences_cons, if_pos ha, without_cons, if_pos List.mem_cons_self, hrest, ih,
        List.filter_cons_of_neg (by simpa using ha)]
    · have hk : k ∉ occurrences value (k + 1) rest := fun hmem => Nat.not_succ_le_self k (le_of_mem_occurrences hmem)
      rw [occurrences_cons, if_neg ha, without_cons, if_neg hk, ih, List.filter_cons_of_pos (by simpa using ha)]

theorem length_occurrences (k : Nat) (l : List α) :
    (occurrences value k l).length + (l.filter (· ≠ value)).length = l.length := by
  induction l generalizing k with
  | nil => rfl
  | cons a rest ih =>
    by_cases ha : a = value
    · rw [occurrences_cons, if_pos ha, List.filter_cons_of_neg (by simpa using ha), List.length_cons, List.length_cons,
        ← ih (k + 1)]
      omega
    · rw [occurrences_cons, if_neg ha, List.filter_cons_of_pos (by simpa using ha), List.length_cons, List.length_cons,
        ← ih (k + 1)]
      omega

end

end Iii.Lib
