import Iii.Lib.Assoc

/-! Entries in buckets.

A map from keys to buckets, each a map of its own. The bucket of a key is made with its first entry, and goes in the
step that takes its last. -/
namespace Iii.Lib

abbrev Buckets (κ ι α : Type) := κ → Option (List (ι × α))

namespace Buckets
variable {κ ι α : Type} {b : Buckets κ ι α} {k k' : κ} {i i' : ι} {a : α}

def bucket (b : Buckets κ ι α) (k : κ) : List (ι × α) := (b k).getD []

/-- No bucket is empty, and no entry twice in one. -/
structure Tidy (b : Buckets κ ι α) : Prop where
  nonempty : ∀ k, b k ≠ some []
  distinct : ∀ k, Assoc.Distinct (b.bucket k)

theorem Tidy.empty : Tidy fun _ : κ => (none : Option (List (ι × α))) := ⟨nofun, fun _ => List.nodup_nil⟩

variable [DecidableEq κ] [DecidableEq ι]

def get? (b : Buckets κ ι α) (k : κ) (i : ι) : Option α := Assoc.get? (b.bucket k) i

/-- `entry(k).or_default().insert(i, a)`. -/
def put (b : Buckets κ ι α) (k : κ) (i : ι) (a : α) : Buckets κ ι α :=
  Function.update b k (some (Assoc.insert (b.bucket k) i a))

/-- `remove_if_mut(k, ..)`: the entry is removed, and the bucket if nothing is left in it. -/
def take (b : Buckets κ ι α) (k : κ) (i : ι) : Buckets κ ι α :=
  match b k with
  | none => b
  | some entries =>
    Function.update b k (if (Assoc.erase entries i).isEmpty then none else some (Assoc.erase entries i))

omit [DecidableEq ι] in
theorem bucket_update (b : Buckets κ ι α) (k k' : κ) (entries : Option (List (ι × α))) :
    bucket (Function.update b k entries) k' = if k' = k then entries.getD [] else b.bucket k' := by
  unfold bucket
  rw [Function.update_apply]
  split <;> rfl

theorem bucket_put (b : Buckets κ ι α) (k k' : κ) (i : ι) (a : α) :
    (b.put k i a).bucket k' = if k' = k then Assoc.insert (b.bucket k) i a else b.bucket k' :=
  bucket_update b k k' _

theorem bucket_take (b : Buckets κ ι α) (k k' : κ) (i : ι) :
    (b.take k i).bucket k' = if k' = k then Assoc.erase (b.bucket k) i else b.bucket k' := by
  unfold take
  cases hk : b k with
  | none =>
    have hempty : b.bucket k = [] := by
      unfold bucket
      rw [hk]
      rfl
    dsimp only
    split
    · rename_i heq
      rw [heq, hempty]
      rfl
    · rfl
  | some entries =>
    have hentries : b.bucket k = entries := by
      unfold bucket
      rw [hk]
      rfl
    dsimp only
    rw [bucket_update, hentries]
    split
    · split
      · rename_i hnil
        exact (List.isEmpty_iff.mp hnil).symm
      · rfl
    · rfl

theorem get?_put : (b.put k i a).get? k' i' = if k' = k ∧ i' = i then some a else b.get? k' i' := by
  unfold get?
  rw [bucket_put]
  by_cases hk : k' = k
  · subst hk
    rw [if_pos rfl, Assoc.get?_insert]
    by_cases hi : i = i' <;> simp [hi, eq_comm]
  · rw [if_neg hk, if_neg fun h => hk h.1]

theorem get?_take : (b.take k i).get? k' i' = if k' = k ∧ i' = i then none else b.get? k' i' := by
  unfold get?
  rw [bucket_take]
  by_cases hk : k' = k
  · subst hk
    rw [if_pos rfl, Assoc.get?_erase]
    by_cases hi : i = i' <;> simp [hi, eq_comm]
  · rw [if_neg hk, if_neg fun h => hk h.1]

theorem Tidy.put (h : b.Tidy) (k : κ) (i : ι) (a : α) : (b.put k i a).Tidy where
  nonempty := by
    intro k'
    unfold Buckets.put
    rw [Function.update_apply]
    split
    · intro hnil
      have hget := Assoc.get?_insert (b.bucket k) i i a
      rw [Option.some_inj.mp hnil, if_pos rfl] at hget
      cases hget
    · exact h.nonempty k'
  distinct := by
    intro k'
    rw [bucket_put]
    split
    · exact Assoc.distinct_insert (h.distinct k) i a
    · exact h.distinct k'

theorem Tidy.take (h : b.Tidy) (k : κ) (i : ι) : (b.take k i).Tidy where
  nonempty := by
    intro k'
    unfold Buckets.take
    cases hk : b k with
    | none => exact h.nonempty k'
    | some entries =>
      dsimp only
      rw [Function.update_apply]
      split
      · split
        · exact nofun
        · rename_i hne
          intro hnil
          rw [Option.some_inj.mp hnil] at hne
          exact hne rfl
      · exact h.nonempty k'
  distinct := by
    intro k'
    rw [bucket_take]
    split
    · exact Assoc.distinct_erase (h.distinct k) i
    · exact h.distinct k'

/-- An entry stands in its bucket once. -/
theorem Tidy.mem_bucket (h : b.Tidy) : (i, a) ∈ b.bucket k ↔ b.get? k i = some a :=
  ⟨fun hmem => Assoc.get?_of_mem (h.distinct k) hmem, Assoc.mem_of_get?⟩

end Buckets

end Iii.Lib
