import Iii.Json.Value

/-! Measuring the nesting of a value with an explicit stack.

The programs bound how deep a value nests without recursing into it: they keep a
stack of values, each with the level it was found at, and stop at a container above the
limit. `walkDepth_ok` says that this measures `depth`. -/
namespace Iii.Json
variable {σ ν : Type}

/-- Pops a value, stops if it is a container above the limit, and pushes its parts one
level deeper. The number of values bounds the passes. -/
def walkDepth (limit : Nat) : (passes : Nat) → (pending : List (Json σ ν × Nat)) → Bool
  | _, [] => true
  | 0, _ :: _ => false
  | passes + 1, (value, level) :: pending =>
    match value with
    | .array items =>
      if level > limit then false
      else walkDepth limit passes ((items.map (·, level + 1)).reverse ++ pending)
    | .object map =>
      if level > limit then false
      else walkDepth limit passes ((map.map fun m => (m.2, level + 1)).reverse ++ pending)
    | _ => walkDepth limit passes pending

/-- A value read at a level fits under the limit: a leaf always does. -/
def Fits (limit : Nat) (e : Json σ ν × Nat) : Prop :=
  e.1.depth = 0 ∨ e.1.depth + e.2 ≤ limit + 1

theorem fits_array (limit : Nat) (items : List (Json σ ν)) (level : Nat) :
    Fits limit (.array items, level) ↔ level ≤ limit ∧ ∀ j ∈ items, Fits limit (j, level + 1) := by
  have hpos : depth (.array items) ≠ 0 := by
    rw [depth]
    omega
  unfold Fits
  simp only [hpos, false_or]
  have hle : depth (.array items) ≤ limit + 1 - level ↔ _ := depth_array_le
  constructor
  · intro h
    refine ⟨by omega, fun j hj => .inr ?_⟩
    have := (hle.mp (by omega)).2 j hj
    omega
  · rintro ⟨hlevel, h⟩
    have := hle.mpr ⟨by omega, fun j hj => by have := h j hj; omega⟩
    omega

theorem fits_object (limit : Nat) (map : List (σ × Json σ ν)) (level : Nat) :
    Fits limit (.object map, level) ↔ level ≤ limit ∧ ∀ m ∈ map, Fits limit (m.2, level + 1) := by
  have h := fits_array limit (map.map (·.2)) level
  have hdepth : depth (.array (map.map (·.2))) = depth (.object map) := by
    rw [depth, depth]
    congr 1
    clear h
    induction map with
    | nil => rfl
    | cons m rest ih => rw [List.map_cons, depthItems, depthMembers, ih]
  unfold Fits at h ⊢
  rw [← hdepth, h]
  simp only [List.forall_mem_map]

/-- The loop accepts when all that is on its stack fits. -/
theorem walkDepth_iff (limit passes : Nat) (pending : List (Json σ ν × Nat))
    (h : (pending.map fun e => e.1.count).sum ≤ passes) :
    walkDepth limit passes pending = true ↔ ∀ e ∈ pending, Fits limit e := by
  induction passes generalizing pending with
  | zero =>
    cases pending with
    | nil => simp [walkDepth]
    | cons e rest =>
      have := count_pos e.1
      rw [List.map_cons, List.sum_cons] at h
      omega
  | succ passes ih =>
    cases pending with
    | nil => simp [walkDepth]
    | cons e rest =>
      obtain ⟨value, level⟩ := e
      simp only [List.map_cons, List.sum_cons] at h
      have hpos := count_pos value
      have hrest := ih rest (by omega)
      rw [List.forall_mem_cons]
      cases value with
      | array items =>
        rw [count, countItems_eq_sum] at h
        have hstack := ih ((items.map (·, level + 1)).reverse ++ rest)
          (by simp [List.map_reverse, List.sum_reverse, Function.comp_def]; omega)
        rw [walkDepth, fits_array]
        split_ifs with hlevel
        · simp only [false_iff]
          omega
        · rw [hstack, List.forall_mem_append]
          simp only [List.mem_reverse, List.forall_mem_map, Nat.le_of_not_gt hlevel, true_and]
      | object map =>
        rw [count, countMembers_eq_sum] at h
        have hstack := ih ((map.map fun m => (m.2, level + 1)).reverse ++ rest)
          (by simp [List.map_reverse, List.sum_reverse, Function.comp_def]; omega)
        rw [walkDepth, fits_object]
        split_ifs with hlevel
        · simp only [false_iff]
          omega
        · rw [hstack, List.forall_mem_append]
          simp only [List.mem_reverse, List.forall_mem_map, Nat.le_of_not_gt hlevel, true_and]
      | _ =>
        simp only [walkDepth, hrest]
        simp [Fits, depth]

theorem walkDepth_ok (limit : Nat) (v : Json σ ν) :
    walkDepth limit v.count [(v, 1)] = true ↔ v.depth ≤ limit := by
  rw [walkDepth_iff limit v.count [(v, 1)] (by simp)]
  simp only [List.mem_singleton, forall_eq, Fits]
  omega

end Iii.Json
