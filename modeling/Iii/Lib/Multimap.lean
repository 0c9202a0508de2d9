import Mathlib.Data.List.Nodup

/-! Maps from keys to sets of values.

The set of a key is a list without repetitions, and a key whose set becomes empty is to leave the map. Taking a value
out and dropping the empty set are two operations, as a value may come in between. -/
namespace Iii.Lib

abbrev Multimap (κ α : Type) := κ → Option (List α)

namespace Multimap
variable {κ α : Type} {m : Multimap κ α} {k k' : κ} {a b : α}

def values (m : Multimap κ α) (k : κ) : List α := (m k).getD []

/-- No key is there for nothing, and no value twice. -/
structure Tidy (m : Multimap κ α) : Prop where
  nonempty : ∀ k, m k ≠ some []
  nodup : ∀ k, (m.values k).Nodup

theorem Tidy.empty : Tidy fun _ : κ => (none : Option (List α)) := ⟨nofun, fun _ => .nil⟩

variable [DecidableEq κ]

theorem values_update (m : Multimap κ α) (k k' : κ) (set : Option (List α)) :
    values (Function.update m k set) k' = if k' = k then set.getD [] else m.values k' := by
  unfold values
  rw [Function.update_apply]
  split <;> rfl

/-- `remove_if(k, is_empty)`. -/
def dropEmpty (m : Multimap κ α) (k : κ) : Multimap κ α :=
  Function.update m k ((m k).filter fun values => !values.isEmpty)

/-- `remove(k)`. -/
def clear (m : Multimap κ α) (k : κ) : Multimap κ α := Function.update m k none

variable [DecidableEq α]

/-- `entry(k).or_default().insert(a)`. -/
def add (m : Multimap κ α) (k : κ) (a : α) : Multimap κ α :=
  Function.update m k (some (if a ∈ m.values k then m.values k else m.values k ++ [a]))

/-- `get_mut(k)`, and `remove(a)` of what is there. -/
def take (m : Multimap κ α) (k : κ) (a : α) : Multimap κ α :=
  Function.update m k ((m k).map fun values => values.filter (· ≠ a))

theorem mem_add : b ∈ (m.add k a).values k' ↔ b ∈ m.values k' ∨ k' = k ∧ b = a := by
  unfold add
  rw [values_update]
  by_cases hk : k' = k
  · subst hk
    rw [if_pos rfl, Option.getD_some]
    split
    · rename_i ha
      refine ⟨.inl, ?_⟩
      rintro (hb | ⟨-, rfl⟩)
      · exact hb
      · exact ha
    · simp
  · simp [hk]

theorem mem_take : b ∈ (m.take k a).values k' ↔ b ∈ m.values k' ∧ ¬(k' = k ∧ b = a) := by
  unfold take
  rw [values_update]
  by_cases hk : k' = k
  · subst hk
    rw [if_pos rfl]
    cases hm : m k' <;> simp [values, hm]
  · simp [hk]

omit [DecidableEq α] in
theorem values_dropEmpty (m : Multimap κ α) (k k' : κ) : (m.dropEmpty k).values k' = m.values k' := by
  unfold dropEmpty
  rw [values_update]
  split
  · rename_i hk
    subst hk
    unfold values
    cases hm : m k' with
    | none => rfl
    | some values => cases values <;> simp [Option.filter]
  · rfl

omit [DecidableEq α] in
theorem mem_clear : b ∈ (m.clear k).values k' ↔ b ∈ m.values k' ∧ k' ≠ k := by
  unfold clear
  rw [values_update]
  split <;> simp [*]

theorem Tidy.add (h : m.Tidy) (k : κ) (a : α) : (m.add k a).Tidy where
  nonempty := by
    intro k'
    unfold Multimap.add
    rw [Function.update_apply]
    split
    · split
      · rename_i ha
        exact fun heq => List.ne_nil_of_mem ha (Option.some.inj heq)
      · simp
    · exact h.nonempty k'
  nodup := by
    intro k'
    unfold Multimap.add
    rw [values_update]
    split
    · rename_i hk
      rw [Option.getD_some]
      split
      · exact h.nodup k
      · rename_i ha
        exact List.nodup_append.mpr ⟨h.nodup k, List.nodup_singleton a, fun b hb c hc => by
          rw [List.mem_singleton.mp hc]
          rintro rfl
          exact ha hb⟩
    · exact h.nodup k'

omit [DecidableEq α] in
theorem Tidy.clear (h : m.Tidy) (k : κ) : (m.clear k).Tidy where
  nonempty := by
    intro k'
    unfold Multimap.clear
    rw [Function.update_apply]
    split
    · nofun
    · exact h.nonempty k'
  nodup := by
    intro k'
    unfold Multimap.clear
    rw [values_update]
    split
    · exact .nil
    · exact h.nodup k'

/-- Taking a value out and dropping the set if it is then empty. -/
theorem Tidy.takeOut (h : m.Tidy) (k : κ) (a : α) : ((m.take k a).dropEmpty k).Tidy where
  nonempty := by
    intro k'
    unfold dropEmpty
    rw [Function.update_apply]
    split
    · cases hm : m.take k a k with
      | none => nofun
      | some values => cases values <;> simp [Option.filter]
    · rename_i hk
      unfold Multimap.take
      rw [Function.update_of_ne hk]
      exact h.nonempty k'
  nodup := by
    intro k'
    rw [values_dropEmpty]
    unfold Multimap.take
    rw [values_update]
    split
    · have hnodup := h.nodup k
      unfold values at hnodup
      cases hm : m k with
      | none => exact .nil
      | some values =>
        rw [hm] at hnodup
        exact hnodup.filter _
    · exact h.nodup k'

end Multimap

end Iii.Lib
