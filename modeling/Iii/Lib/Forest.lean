import Mathlib.Combinatorics.Pigeonhole

/-! Trees that are given by the parent of each node.

The nodes under a node are listed by going down from it, and the whole forest by going down from
those without a parent. A node is listed under each of its ancestors once (`count_below`), and one of
them has no parent, so when no node is its own ancestor the forest lists every node once. -/
namespace Iii.Lib
variable {κ : Type} [DecidableEq κ]

/-- A node and those below it, at most `rows` levels of them. -/
def below (order : List κ) (parent : κ → Option κ) : (rows : Nat) → κ → List κ
  | 0, _ => []
  | rows + 1, k => k :: (order.filter fun c => parent c = some k).flatMap (below order parent rows)

def forest (order : List κ) (parent : κ → Option κ) (rows : Nat) : List κ :=
  (order.filter fun k => parent k = none).flatMap (below order parent rows)

omit [DecidableEq κ] in
/-- The ancestor so many levels up. -/
def ancestor (parent : κ → Option κ) : Nat → κ → Option κ
  | 0, k => some k
  | n + 1, k => (ancestor parent n k).bind parent

section Ancestors
variable {order : List κ} {parent : κ → Option κ}

omit [DecidableEq κ] in
theorem ancestor_mem (hparent : ∀ c p, parent c = some p → p ∈ order) {n : Nat} {k a : κ} (hk : k ∈ order)
    (h : ancestor parent n k = some a) : a ∈ order := by
  cases n with
  | zero =>
    cases h
    exact hk
  | succ n =>
    obtain ⟨c, -, hc⟩ := Option.bind_eq_some_iff.mp h
    exact hparent c a hc

omit [DecidableEq κ] in
theorem ancestor_path {n m : Nat} {k a b : κ} (ha : ancestor parent n k = some a)
    (hb : ancestor parent (n + m + 1) k = some b) : Relation.TransGen (fun c p => parent c = some p) a b := by
  induction m generalizing b with
  | zero =>
    obtain ⟨c, hc, hstep⟩ := Option.bind_eq_some_iff.mp hb
    have hc : ancestor parent n k = some c := hc
    rw [ha] at hc
    cases hc
    exact .single hstep
  | succ m ih =>
    obtain ⟨c, hc, hstep⟩ := Option.bind_eq_some_iff.mp hb
    exact (ih hc).tail hstep

omit [DecidableEq κ] in
theorem ancestor_none {n m : Nat} {k : κ} (h : ancestor parent n k = none) : ancestor parent (n + m) k = none := by
  induction m with
  | zero => exact h
  | succ m ih =>
    show (ancestor parent (n + m) k).bind parent = none
    rw [ih]
    rfl

/-- Without cycles the ancestors of a node come to an end. -/
theorem exists_ancestor_none (hparent : ∀ c p, parent c = some p → p ∈ order)
    (hacyclic : ∀ k, ¬ Relation.TransGen (fun c p => parent c = some p) k k) {k : κ} (hk : k ∈ order) :
    ancestor parent order.length k = none := by
  by_contra hsome
  have hall : ∀ i ≤ order.length, ∃ a, ancestor parent i k = some a := by
    intro i hi
    cases ha : ancestor parent i k with
    | some a => exact ⟨a, rfl⟩
    | none =>
      refine absurd ?_ hsome
      rw [show order.length = i + (order.length - i) by omega]
      exact ancestor_none ha
  -- There are more of them than nodes, so two are the same.
  have hmaps : ∀ i ∈ Finset.range (order.length + 1), (ancestor parent i k).getD k ∈ order.toFinset := by
    intro i hi
    obtain ⟨a, ha⟩ := hall i (by rw [Finset.mem_range] at hi; omega)
    rw [ha, Option.getD_some, List.mem_toFinset]
    exact ancestor_mem hparent hk ha
  have hcard : order.toFinset.card < (Finset.range (order.length + 1)).card := by
    rw [Finset.card_range]
    exact Nat.lt_succ_of_le (List.toFinset_card_le order)
  obtain ⟨i, hi, j, hj, hne, heq⟩ := Finset.exists_ne_map_eq_of_card_lt_of_maps_to hcard hmaps
  obtain ⟨a, ha⟩ := hall i (by rw [Finset.mem_range] at hi; omega)
  obtain ⟨b, hb⟩ := hall j (by rw [Finset.mem_range] at hj; omega)
  rw [ha, hb, Option.getD_some, Option.getD_some] at heq
  subst heq
  rcases Nat.lt_or_gt_of_ne hne with hlt | hlt
  · refine hacyclic a (ancestor_path ha (m := j - i - 1) ?_)
    rw [show i + (j - i - 1) + 1 = j by omega]
    exact hb
  · refine hacyclic a (ancestor_path hb (m := i - j - 1) ?_)
    rw [show j + (i - j - 1) + 1 = i by omega]
    exact ha

omit [DecidableEq κ] in
/-- There is one level at which the ancestor has no parent. -/
theorem exists_last_ancestor {k : κ} {rows : Nat} (hend : ancestor parent rows k = none) :
    ∃ n < rows, ∀ i, (∃ c, ancestor parent i k = some c ∧ parent c = none) ↔ i = n := by
  induction rows with
  | zero => cases hend
  | succ n ih =>
    cases hlast : ancestor parent n k with
    | none =>
      obtain ⟨m, hm, hlevel⟩ := ih hlast
      exact ⟨m, Nat.lt_succ_of_lt hm, hlevel⟩
    | some c =>
      have hroot : parent c = none := by
        rw [ancestor, hlast] at hend
        exact hend
      refine ⟨n, Nat.lt_succ_self n, fun i => ⟨?_, ?_⟩⟩
      · rintro ⟨c', hc', hroot'⟩
        rcases lt_trichotomy i n with hi | hi | hi
        · -- Above a node without a parent there is nothing.
          have hnext : ancestor parent (i + 1) k = none := by
            rw [ancestor, hc']
            exact hroot'
          have hnone := ancestor_none (m := n - (i + 1)) hnext
          rw [show i + 1 + (n - (i + 1)) = n by omega, hlast] at hnone
          cases hnone
        · exact hi
        · have hnone := ancestor_none (m := i - (n + 1)) hend
          rw [show n + 1 + (i - (n + 1)) = i by omega, hc'] at hnone
          cases hnone
      · rintro rfl
        exact ⟨c, hlast, hroot⟩

end Ancestors

/-! ### Counting -/

section Count
variable {order : List κ} {parent : κ → Option κ}

/-- Of the nodes with some property one at most is the given ancestor. -/
theorem sum_ancestor (hnodup : order.Nodup) (hparent : ∀ c p, parent c = some p → p ∈ order) (p : κ → Prop)
    [DecidablePred p] {k : κ} (hk : k ∈ order) (i : Nat) :
    ((order.filter p).map fun c => if ancestor parent i k = some c then 1 else 0).sum =
      if ∃ c, ancestor parent i k = some c ∧ p c then 1 else 0 := by
  cases ha : ancestor parent i k with
  | none => simp
  | some a =>
    have hcount : ((order.filter p).map fun c => if some a = some c then 1 else 0).sum = (order.filter p).count a := by
      rw [List.count_eq_countP, List.countP_eq_length_filter]
      induction order.filter p with
      | nil => rfl
      | cons c rest ih =>
        rw [List.map_cons, List.sum_cons, ih, List.filter_cons]
        by_cases heq : c = a
        · subst heq
          simp [Nat.add_comm]
        · simp [heq, Ne.symm heq]
    rw [hcount]
    have hmem : a ∈ order := ancestor_mem hparent hk ha
    by_cases hp : p a
    · rw [if_pos ⟨a, rfl, hp⟩]
      exact List.count_eq_one_of_mem (hnodup.filter _) (List.mem_filter.mpr ⟨hmem, by simpa using hp⟩)
    · rw [if_neg (by simpa using hp)]
      exact List.count_eq_zero_of_not_mem fun h => hp (by simpa using (List.mem_filter.mp h).2)

omit [DecidableEq κ] in
theorem sum_map_sum {ι : Type} (l : List κ) (s : Finset ι) (f : κ → ι → Nat) :
    (l.map fun c => ∑ i ∈ s, f c i).sum = ∑ i ∈ s, (l.map fun c => f c i).sum := by
  induction l with
  | nil => simp
  | cons c rest ih =>
    simp only [List.map_cons, List.sum_cons]
    rw [ih, Finset.sum_add_distrib]

/-- A node is listed under a node as often as that is its ancestor. -/
theorem count_below (hnodup : order.Nodup) (hparent : ∀ c p, parent c = some p → p ∈ order) {x : κ} (hx : x ∈ order)
    (rows : Nat) (k : κ) :
    (below order parent rows k).count x =
      ∑ i ∈ Finset.range rows, if ancestor parent i x = some k then 1 else 0 := by
  induction rows generalizing k with
  | zero => rfl
  | succ rows ih =>
    have hchildren : ((order.filter fun c => parent c = some k).flatMap (below order parent rows)).count x =
        ∑ i ∈ Finset.range rows, if ancestor parent (i + 1) x = some k then 1 else 0 := by
      rw [List.count_flatMap]
      have hmap : (order.filter fun c => parent c = some k).map (List.count x ∘ below order parent rows) =
          (order.filter fun c => parent c = some k).map fun c =>
            ∑ i ∈ Finset.range rows, if ancestor parent i x = some c then 1 else 0 :=
        List.map_congr_left fun c _ => ih c
      rw [hmap, sum_map_sum]
      refine Finset.sum_congr rfl fun i _ => ?_
      rw [sum_ancestor hnodup hparent (fun c => parent c = some k) hx i]
      exact if_congr (by rw [ancestor, Option.bind_eq_some_iff]) rfl rfl
    rw [below, List.count_cons, hchildren, Finset.sum_range_succ']
    congr 1
    by_cases heq : k = x
    · simp [heq, ancestor]
    · simp [heq, Ne.symm heq, ancestor]

theorem mem_order_of_mem_below {rows : Nat} {k x : κ} (hk : k ∈ order) (h : x ∈ below order parent rows k) :
    x ∈ order := by
  induction rows generalizing k with
  | zero => cases h
  | succ rows ih =>
    rcases List.mem_cons.mp h with rfl | h
    · exact hk
    · obtain ⟨c, hc, h⟩ := List.mem_flatMap.mp h
      exact ih (List.mem_filter.mp hc).1 h

/-- Every node has one ancestor without a parent, and is listed under that one. -/
theorem forest_perm (hnodup : order.Nodup) (hparent : ∀ c p, parent c = some p → c ∈ order ∧ p ∈ order)
    (hacyclic : ∀ k, ¬ Relation.TransGen (fun c p => parent c = some p) k k) :
    (forest order parent order.length).Perm order := by
  have hparent' : ∀ c p, parent c = some p → p ∈ order := fun c p h => (hparent c p h).2
  refine List.perm_iff_count.mpr fun x => ?_
  by_cases hx : x ∈ order
  · rw [List.count_eq_one_of_mem hnodup hx, forest, List.count_flatMap]
    have hmap : (order.filter fun k => parent k = none).map (List.count x ∘ below order parent order.length) =
        (order.filter fun k => parent k = none).map fun k =>
          ∑ i ∈ Finset.range order.length, if ancestor parent i x = some k then 1 else 0 :=
      List.map_congr_left fun k _ => count_below hnodup hparent' hx _ k
    rw [hmap, sum_map_sum]
    obtain ⟨n, hlt, hlevel⟩ := exists_last_ancestor (exists_ancestor_none hparent' hacyclic hx)
    have hsum : ∀ i ∈ Finset.range order.length,
        ((order.filter fun k => parent k = none).map fun k => if ancestor parent i x = some k then 1 else 0).sum =
          if n = i then 1 else 0 := by
      intro i _
      rw [sum_ancestor hnodup hparent' (fun k => parent k = none) hx i]
      exact if_congr ((hlevel i).trans eq_comm) rfl rfl
    rw [Finset.sum_congr rfl hsum, Finset.sum_ite_eq, if_pos (Finset.mem_range.mpr hlt)]
  · rw [List.count_eq_zero_of_not_mem hx, List.count_eq_zero]
    intro hmem
    obtain ⟨k, hk, hbelow⟩ := List.mem_flatMap.mp hmem
    exact hx (mem_order_of_mem_below (List.mem_filter.mp hk).1 hbelow)

end Count

end Iii.Lib
