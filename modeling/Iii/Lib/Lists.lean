import Mathlib.Algebra.Ring.Nat
import Mathlib.Data.List.Destutter
import Mathlib.Data.List.Sort
import Mathlib.Algebra.Order.BigOperators.Group.List

/-! Lists: quantifiers over members, sums over sublists, and what sorting followed
by dropping adjacent repetitions keeps. -/
namespace Iii.Lib
variable {α β : Type}

variable {l : List α} {p : α → Bool} {l' : List β}

theorem all_congr_mem {q : α → Bool} (h : ∀ a ∈ l, p a = q a) : l.all p = l.all q := by
  induction l with
  | nil => rfl
  | cons a rest ih =>
    rw [List.all_cons, List.all_cons, h a (List.mem_cons_self ..),
      ih fun b hb => h b (List.mem_cons_of_mem _ hb)]

theorem any_congr_mem {q : α → Bool} (h : ∀ a ∈ l, p a = q a) : l.any p = l.any q := by
  induction l with
  | nil => rfl
  | cons a rest ih =>
    rw [List.any_cons, List.any_cons, h a (List.mem_cons_self ..),
      ih fun b hb => h b (List.mem_cons_of_mem _ hb)]

variable {R : α → β → Prop}

theorem all_forall₂ (h : List.Forall₂ R l l') {q : β → Bool} (hpq : ∀ a b, R a b → p a = q b) :
    l.all p = l'.all q := by
  induction h with
  | nil => rfl
  | cons hab _ ih => rw [List.all_cons, List.all_cons, ih, hpq _ _ hab]

theorem any_forall₂ (h : List.Forall₂ R l l') {q : β → Bool} (hpq : ∀ a b, R a b → p a = q b) :
    l.any p = l'.any q := by
  induction h with
  | nil => rfl
  | cons hab _ ih => rw [List.any_cons, List.any_cons, ih, hpq _ _ hab]

theorem exists_of_forall₂ (h : List.Forall₂ R l l') :
    ∀ b ∈ l', ∃ a ∈ l, R a b := by
  induction h with
  | nil => simp
  | cons hab _ ih =>
    rw [List.forall_mem_cons]
    refine ⟨⟨_, List.mem_cons_self .., hab⟩, fun b hb => ?_⟩
    obtain ⟨a, ha, hR⟩ := ih b hb
    exact ⟨a, List.mem_cons_of_mem _ ha, hR⟩

theorem forall₂_snoc {a : α} (h : List.Forall₂ R (l ++ [a]) l') :
    ∃ init b, l' = init ++ [b] ∧ List.Forall₂ R l init ∧ R a b := by
  induction l generalizing l' with
  | nil =>
    obtain ⟨b, rest, hb, hrest, rfl⟩ := List.forall₂_cons_left_iff.mp h
    rw [List.forall₂_nil_left_iff] at hrest
    subst hrest
    exact ⟨[], b, rfl, .nil, hb⟩
  | cons x l ih =>
    obtain ⟨y, rest, hxy, hrest, rfl⟩ := List.forall₂_cons_left_iff.mp h
    obtain ⟨init, b, rfl, hinit, hb⟩ := ih hrest
    exact ⟨y :: init, b, rfl, .cons hxy hinit, hb⟩

theorem sum_flatMap_le {g : α → List β} {f : β → Nat} {h : α → Nat} (hle : ∀ a ∈ l, ((g a).map f).sum ≤ h a) :
    ((l.flatMap g).map f).sum ≤ (l.map h).sum := by
  induction l with
  | nil => simp
  | cons a rest ih =>
    rw [List.flatMap_cons, List.map_append, List.sum_append, List.map_cons, List.sum_cons]
    exact Nat.add_le_add (hle a (List.mem_cons_self ..)) (ih fun b hb => hle b (List.mem_cons_of_mem _ hb))

section Destutter
variable {S : α → α → Prop} [DecidableRel S]
variable (hrefl : ∀ a, S a a) (htrans : ∀ a b c, S a b → S b c → S a c)

include hrefl htrans

theorem exists_mem_destutter' (l : List α) (a x : α) (hx : x ∈ a :: l) :
    ∃ y ∈ l.destutter' (fun a b => ¬ S a b) a, S y x := by
  induction l generalizing a x with
  | nil =>
    rcases List.mem_singleton.mp hx with rfl
    exact ⟨x, by simp, hrefl x⟩
  | cons b rest ih =>
    by_cases hab : S a b
    · rw [List.destutter'_cons_neg _ (not_not.mpr hab)]
      rcases List.mem_cons.mp hx with rfl | hx
      · exact ih x x (List.mem_cons_self ..)
      · rcases List.mem_cons.mp hx with rfl | hx
        · obtain ⟨y, hy, hya⟩ := ih a a (List.mem_cons_self ..)
          exact ⟨y, hy, htrans _ _ _ hya hab⟩
        · exact ih a x (List.mem_cons_of_mem _ hx)
    · rw [List.destutter'_cons_pos _ hab]
      rcases List.mem_cons.mp hx with rfl | hx
      · exact ⟨x, List.mem_cons_self .., hrefl x⟩
      · obtain ⟨y, hy, hyx⟩ := ih b x hx
        exact ⟨y, List.mem_cons_of_mem _ hy, hyx⟩

/-- Each dropped element repeats a kept one. -/
theorem exists_mem_destutter {l : List α} {x : α} (hx : x ∈ l) :
    ∃ y ∈ l.destutter (fun a b => ¬ S a b), S y x := by
  cases l with
  | nil => cases hx
  | cons a rest => exact exists_mem_destutter' hrefl htrans rest a x hx

/-- A property that repetitions share holds of all elements iff it holds of the kept ones. -/
theorem all_destutter {l : List α} {p : α → Bool} (hp : ∀ a ∈ l, ∀ b ∈ l, S a b → p a = p b) :
    (l.destutter (fun a b => ¬ S a b)).all p = l.all p := by
  rw [Bool.eq_iff_iff, List.all_eq_true, List.all_eq_true]
  constructor
  · intro h x hx
    obtain ⟨y, hy, hyx⟩ := exists_mem_destutter hrefl htrans hx
    rw [← hp y ((List.destutter_sublist _ l).subset hy) x hx hyx]
    exact h y hy
  · intro h x hx
    exact h x ((List.destutter_sublist _ l).subset hx)

theorem any_destutter {l : List α} {p : α → Bool} (hp : ∀ a ∈ l, ∀ b ∈ l, S a b → p a = p b) :
    (l.destutter (fun a b => ¬ S a b)).any p = l.any p := by
  rw [Bool.eq_iff_iff, List.any_eq_true, List.any_eq_true]
  constructor
  · rintro ⟨x, hx, h⟩
    exact ⟨x, (List.destutter_sublist _ l).subset hx, h⟩
  · rintro ⟨x, hx, h⟩
    obtain ⟨y, hy, hyx⟩ := exists_mem_destutter hrefl htrans hx
    exact ⟨y, hy, by rw [hp y ((List.destutter_sublist _ l).subset hy) x hx hyx]; exact h⟩

end Destutter

theorem map_eq_of_map_eq {κ γ : Type} {k : α → κ} {f : α → γ} (h : ∀ a b, k a = k b → f a = f b) {l' : List α}
    (hmap : l.map k = l'.map k) : l.map f = l'.map f := by
  induction l generalizing l' with
  | nil =>
    rw [List.map_nil, eq_comm, List.map_eq_nil_iff] at hmap
    rw [hmap]
  | cons a rest ih =>
    cases l' with
    | nil => cases hmap
    | cons b rest' =>
      rw [List.map_cons, List.map_cons, List.cons.injEq] at hmap
      rw [List.map_cons, List.map_cons, h a b hmap.1, ih hmap.2]

theorem map_congr_zip {f : α → β} {l' : List α} (hlen : l.length = l'.length)
    (h : ∀ p ∈ l.zip l', f p.1 = f p.2) :
    l.map f = l'.map f := by
  induction l generalizing l' with
  | nil => rw [List.length_eq_zero_iff.mp hlen.symm]
  | cons a rest ih =>
    cases l' with
    | nil => cases hlen
    | cons b rest' =>
      rw [List.zip_cons_cons, List.forall_mem_cons] at h
      rw [List.map_cons, List.map_cons, h.1, ih (Nat.succ.inj hlen) h.2]

theorem zip_of_map_eq {f : α → β} {l' : List α} (h : l.map f = l'.map f) : ∀ p ∈ l.zip l', f p.1 = f p.2 := by
  induction l generalizing l' with
  | nil => simp
  | cons a rest ih =>
    cases l' with
    | nil => simp
    | cons b rest' =>
      rw [List.map_cons, List.map_cons, List.cons.injEq] at h
      rw [List.zip_cons_cons, List.forall_mem_cons]
      exact ⟨h.1, ih h.2⟩

section SortedOnce
variable {κ : Type} [LinearOrder κ] (k : α → κ) {S : α → α → Prop} [DecidableRel S] (hS : ∀ a b, S a b ↔ k a = k b)

/-- Sorted by a key, with adjacent equal keys dropped. -/
def sortedOnce (k : α → κ) (S : α → α → Prop) [DecidableRel S] (l : List α) : List α :=
  (l.insertionSort fun a b => k a ≤ k b).destutter fun a b => ¬ S a b

include hS

theorem sortedOnce_ascends (l : List α) : ((sortedOnce k S l).map k).Pairwise (· < ·) := by
  have hle : (sortedOnce k S l).Pairwise fun a b => k a ≤ k b :=
    (List.pairwise_insertionSort (fun a b => k a ≤ k b) l).sublist (List.destutter_sublist _ _)
  have hne : (sortedOnce k S l).IsChain fun a b => ¬ S a b := List.isChain_destutter _ _
  rw [← List.isChain_iff_pairwise, List.isChain_map, List.isChain_iff_getElem]
  intro i hi
  have hadjacent := List.isChain_iff_getElem.mp hne i hi
  exact lt_of_le_of_ne (List.isChain_iff_getElem.mp hle.isChain i hi) fun heq => hadjacent ((hS _ _).mpr heq)

theorem mem_sortedOnce (l : List α) (x : κ) : x ∈ (sortedOnce k S l).map k ↔ x ∈ l.map k := by
  rw [List.mem_map, List.mem_map]
  constructor
  · rintro ⟨a, ha, rfl⟩
    exact ⟨a, (List.mem_insertionSort _).mp ((List.destutter_sublist _ _).subset ha), rfl⟩
  · rintro ⟨a, ha, rfl⟩
    have hrefl : ∀ a, S a a := fun a => (hS a a).mpr rfl
    have htrans : ∀ a b c, S a b → S b c → S a c := fun a b c hab hbc =>
      (hS a c).mpr (((hS a b).mp hab).trans ((hS b c).mp hbc))
    obtain ⟨b, hb, hba⟩ := exists_mem_destutter hrefl htrans ((List.mem_insertionSort fun a b => k a ≤ k b).mpr ha)
    exact ⟨b, hb, (hS b a).mp hba⟩

/-- Lists with the same keys are sorted to the same keys. -/
theorem map_sortedOnce {l l' : List α} (h : ∀ x, x ∈ l.map k ↔ x ∈ l'.map k) :
    (sortedOnce k S l).map k = (sortedOnce k S l').map k := by
  refine (sortedOnce_ascends k hS l).eq_of_mem_iff (sortedOnce_ascends k hS l') fun x => ?_
  rw [mem_sortedOnce k hS, mem_sortedOnce k hS, h]

end SortedOnce

end Iii.Lib
