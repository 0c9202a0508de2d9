import Iii.Reporter.Buffer
import Mathlib.Data.List.TakeWhile

/-! The lists of the buffer: in `seq` order, and no item lost or made. -/
namespace Iii.Reporter
open Lib

variable {B : Type} {items incoming list sendable : List (Item B)} {item : Item B}

def Sorted (l : List (Item B)) : Prop := l.Pairwise fun a b => a.seq ≤ b.seq

theorem Sorted.sublist {l l' : List (Item B)} (h : Sorted l') (hsub : l.Sublist l') : Sorted l :=
  List.Pairwise.sublist hsub h

theorem Sorted.append {l l' : List (Item B)} (hl : Sorted l) (hl' : Sorted l')
    (h : ∀ a ∈ l, ∀ b ∈ l', a.seq ≤ b.seq) : Sorted (l ++ l') :=
  List.pairwise_append.mpr ⟨hl, hl', h⟩

/-- In order, what comes first in a list is at most its last item. -/
theorem Sorted.le_getLast {l : List (Item B)} (h : Sorted l) {newest : Item B} (hlast : l.getLast? = some newest) :
    ∀ a ∈ l, a.seq ≤ newest.seq := by
  obtain ⟨init, rfl⟩ := List.getLast?_eq_some_iff.mp hlast
  intro a ha
  rcases List.mem_append.mp ha with ha | ha
  · exact (List.pairwise_append.mp h).2.2 a ha newest (List.mem_singleton_self _)
  · rw [List.mem_singleton.mp ha]

theorem Sorted.head_le {l : List (Item B)} (h : Sorted l) {oldest : Item B} (hhead : l.head? = some oldest) :
    ∀ a ∈ l, oldest.seq ≤ a.seq := by
  obtain ⟨rest, rfl⟩ := List.head?_eq_some_iff.mp hhead
  intro a ha
  rcases List.mem_cons.mp ha with rfl | ha
  · exact Nat.le_refl _
  · exact List.rel_of_pairwise_cons h ha

/-! ### Merging -/

theorem mergeIn_perm (items incoming : List (Item B)) : (mergeIn items incoming).Perm (items ++ incoming) := by
  unfold mergeIn
  split
  · split
    · exact List.Perm.refl _
    · split
      · exact List.perm_append_comm
      · refine ((List.merge_perm_append _).append_left _).trans ?_
        rw [← List.append_assoc, List.takeWhile_append_dropWhile]
  · rename_i hnot
    cases incoming with
    | nil => rw [List.append_nil]
    | cons a rest => exact (hnot a _ rfl (List.getLast?_eq_some_getLast (List.cons_ne_nil a rest))).elim

theorem mem_mergeIn : item ∈ mergeIn items incoming ↔ item ∈ items ∨ item ∈ incoming := by
  rw [(mergeIn_perm items incoming).mem_iff, List.mem_append]

theorem merge_sorted (hitems : Sorted items) (hincoming : Sorted incoming) :
    Sorted (List.merge items incoming fun a b => a.seq ≤ b.seq) := by
  have htrans : ∀ a b c : Item B, decide (a.seq ≤ b.seq) = true → decide (b.seq ≤ c.seq) = true →
      decide (a.seq ≤ c.seq) = true := by
    simp
    omega
  have h := List.pairwise_merge htrans (by simp; omega) items incoming (by simpa [Sorted] using hitems)
    (by simpa [Sorted] using hincoming)
  simpa [Sorted] using h

theorem mergeIn_sorted (hitems : Sorted items) (hincoming : Sorted incoming) : Sorted (mergeIn items incoming) := by
  unfold mergeIn
  split
  · rename_i first last hfirst hlast
    have hleast := hincoming.head_le hfirst
    have hmost := hincoming.le_getLast hlast
    split
    · -- all newer
      rename_i hnewer
      apply hitems.append hincoming
      intro a ha b hb
      obtain ⟨newest, hnewest⟩ : ∃ newest, items.getLast? = some newest := by
        rw [List.getLast?_eq_some_getLast (List.ne_nil_of_mem ha)]
        exact ⟨_, rfl⟩
      rw [hnewest] at hnewer
      have h₁ := hitems.le_getLast hnewest a ha
      have h₂ : newest.seq ≤ first.seq := by simpa using hnewer
      have h₃ := hleast b hb
      omega
    · split
      · -- all older
        rename_i _ holder
        obtain ⟨oldest, holdest, hlt⟩ := (Option.any_eq_true _ _).mp holder
        apply hincoming.append hitems
        intro a ha b hb
        have h₁ := hmost a ha
        have h₂ : last.seq < oldest.seq := by simpa using hlt
        have h₃ := hitems.head_le holdest b hb
        omega
      · apply Sorted.append (hitems.sublist (List.takeWhile_sublist _))
        · exact merge_sorted (hitems.sublist (List.dropWhile_sublist _)) hincoming
        · intro a ha b hb
          rcases List.mem_append.mp ((List.merge_perm_append _).mem_iff.mp hb) with hb | hb
          · have happ : Sorted (items.takeWhile (fun item => item.seq ≤ first.seq) ++
                items.dropWhile (fun item => item.seq ≤ first.seq)) := by
              rw [List.takeWhile_append_dropWhile]
              exact hitems
            exact (List.pairwise_append.mp happ).2.2 a ha b hb
          · have h₁ : a.seq ≤ first.seq := by simpa using List.mem_takeWhile_imp ha
            have h₂ := hleast b hb
            omega
  · exact hitems

theorem insertInOrder_perm (list : List (Item B)) (item : Item B) : (insertInOrder list item).Perm (item :: list) := by
  unfold insertInOrder
  refine List.perm_middle.trans ?_
  rw [List.takeWhile_append_dropWhile]

theorem mem_insertInOrder {x : Item B} : x ∈ insertInOrder list item ↔ x = item ∨ x ∈ list := by
  rw [(insertInOrder_perm list item).mem_iff, List.mem_cons]

/-- In order, the items after the point are newer. -/
theorem Sorted.lt_of_mem_dropWhile (hlist : Sorted list) {n : Nat} :
    ∀ a ∈ list.dropWhile (fun other => other.seq ≤ n), n < a.seq := by
  induction list with
  | nil => simp
  | cons b rest ih =>
    obtain ⟨hleast, hrest⟩ := List.pairwise_cons.mp hlist
    rw [List.dropWhile_cons]
    split
    · exact ih hrest
    · rename_i hlt
      have hlt : n < b.seq := by simpa using hlt
      intro a ha
      rcases List.mem_cons.mp ha with rfl | ha
      · exact hlt
      · exact Nat.lt_of_lt_of_le hlt (hleast a ha)

theorem insertInOrder_sorted (hlist : Sorted list) (item : Item B) : Sorted (insertInOrder list item) := by
  have happ : Sorted (list.takeWhile (fun other => other.seq ≤ item.seq) ++
      list.dropWhile (fun other => other.seq ≤ item.seq)) := by
    rw [List.takeWhile_append_dropWhile]
    exact hlist
  obtain ⟨hold, hnew, hle⟩ := List.pairwise_append.mp happ
  apply Sorted.append hold
  · exact List.pairwise_cons.mpr ⟨fun a ha => Nat.le_of_lt (hlist.lt_of_mem_dropWhile a ha), hnew⟩
  · intro a ha b hb
    have h : a.seq ≤ item.seq := by simpa using List.mem_takeWhile_imp ha
    rcases List.mem_cons.mp hb with rfl | hb
    · exact h
    · exact hle a ha b hb

theorem insertionSort_sorted (items : List (Item B)) : Sorted (items.insertionSort fun a b => a.seq ≤ b.seq) := by
  have : Std.Total (fun a b : Item B => a.seq ≤ b.seq) := ⟨fun a b => Nat.le_total a.seq b.seq⟩
  have : IsTrans (Item B) (fun a b => a.seq ≤ b.seq) := ⟨fun _ _ _ => Nat.le_trans⟩
  exact List.pairwise_insertionSort _ _

/-! ### Frames -/

theorem fill_items (J : Wire B) (L : Limits) (cur : List (Item B)) (len : Nat) (sendable : List (Item B)) :
    (fill J L cur len sendable).flatMap (·.items) = cur ++ sendable.filter fun item => J.json item ≤ largestItem L := by
  induction sendable generalizing cur len with
  | nil =>
    rw [fill]
    split
    · simp_all
    · simp
  | cons item rest ih =>
    rw [fill]
    split
    · rename_i hlarge
      rw [ih, List.filter_cons, if_neg (by simpa using hlarge)]
    · rename_i hsmall
      have hsmall : J.json item ≤ largestItem L := by omega
      split
      · rw [List.flatMap_cons, ih, List.filter_cons, if_pos (by simpa using hsmall)]
        rfl
      · rw [ih, List.filter_cons, if_pos (by simpa using hsmall), List.append_assoc]
        rfl

/-- The frames have the items that fit one, in their order. -/
theorem frames_items (J : Wire B) (L : Limits) (sendable : List (Item B)) :
    (frames J L sendable).flatMap (·.items) = sendable.filter fun item => J.json item ≤ largestItem L :=
  fill_items J L [] 0 sendable

theorem frames_tooLarge_perm (J : Wire B) (L : Limits) (sendable : List (Item B)) :
    ((frames J L sendable).flatMap (·.items) ++ tooLarge J L sendable).Perm sendable := by
  have heq : tooLarge J L sendable = sendable.filter fun item => !decide (J.json item ≤ largestItem L) := by
    unfold tooLarge
    congr 1
    funext item
    rw [Bool.eq_iff_iff]
    simp
  rw [frames_items, heq]
  exact List.filter_append_perm _ _

end Iii.Reporter
