import Mathlib.Data.List.Induction

/-! One layer of a tree over what is below it.

A layer says what stands at each path, and with it something about the paths further down: what is
not a directory, and a directory that hides, covers whatever the layers below have there. The
overlay reading follows from that.

A merge that copies a directory whole where it meets none differs from the reading: the whiteouts
inside are left standing. And where it notes the layer of each path that is not a directory, it
forgets only what a whiteout or a directory replaces. Both are described here path by path, over
any views, together with how they go down one name. -/
namespace Iii.Lib.Overlay
variable {K L M : Type}

/-- What stands at a path. -/
inductive Cell (L M : Type) where
  | leaf (l : L)
  | whiteout
  | directory (m : M) (hides : Bool)

def Cell.plain : Cell L M → Cell L M
  | .leaf l => .leaf l
  | .whiteout => .whiteout
  | .directory m _ => .directory m false

/-- What is read where a layer has `c`. -/
def Cell.read : Cell L M → Option (Cell L M)
  | .leaf l => some (.leaf l)
  | .whiteout => none
  | .directory m _ => some (.directory m false)

/-- The layer that is noted for what is not a directory. -/
def Cell.noted (i : Nat) : Cell L M → Option Nat
  | .leaf _ => some i
  | .whiteout => some i
  | .directory .. => none

abbrev View (K L M : Type) := List K → Option (Cell L M)

/-! ### Ancestors of a path -/

def Above (q p : List K) : Prop := q <+: p ∧ q ≠ p

theorem not_above_nil {q : List K} : ¬ Above q [] := fun h => h.2 (List.prefix_nil.mp h.1)

theorem above_cons {q p : List K} {k : K} : Above q (k :: p) ↔ q = [] ∨ ∃ q', q = k :: q' ∧ Above q' p := by
  constructor
  · rintro ⟨hpre, hne⟩
    rcases List.prefix_cons_iff.mp hpre with rfl | ⟨q', rfl, hpre'⟩
    · exact .inl rfl
    · exact .inr ⟨q', rfl, hpre', fun heq => hne (congrArg _ heq)⟩
  · rintro (rfl | ⟨q', rfl, hpre, hne⟩)
    · exact ⟨List.nil_prefix, nofun⟩
    · exact ⟨(List.prefix_cons_inj k).mpr hpre, fun heq => hne (List.cons.inj heq).2⟩

theorem above_nil_cons (k : K) (p : List K) : Above [] (k :: p) := above_cons.mpr (.inl rfl)

theorem above_or_eq {q p : List K} (h : q <+: p) : q = p ∨ Above q p := by
  by_cases heq : q = p
  · exact .inl heq
  · exact .inr ⟨h, heq⟩

theorem Above.trans {r q p : List K} (hr : Above r q) (hq : q <+: p) : Above r p := by
  refine ⟨hr.1.trans hq, ?_⟩
  rintro rfl
  exact hr.2 (hr.1.eq_of_length_le hq.length_le)

/-! ### What one layer says about a path -/

namespace View
variable (u v : View K L M) (p : List K)

def IsDir : Prop := ∃ m hides, v p = some (.directory m hides)

/-- What has something at a path has directories above it. -/
def Shaped : Prop := ∀ q p, Above q p → v p ≠ none → v.IsDir q

/-- The layers below are not seen at `p`, for what `u` has above it. -/
def Covers : Prop :=
  ∃ q, Above q p ∧ (u q = some .whiteout ∨ (∃ l, u q = some (.leaf l)) ∨ ∃ m, u q = some (.directory m true))

def Touches : Prop := u p ≠ none ∨ u.Covers p

/-- A non-directory of `u` stands above `p`. -/
def Buries : Prop := ∃ q l, Above q p ∧ u q = some (.leaf l)

/-- A directory of `u` that does not meet one of `v`. -/
def Fresh : Prop := u.IsDir p ∧ (v.IsDir p → ∃ q m, Above q p ∧ u q = some (.directory m true))

def Inside : Prop := ∃ q, Above q p ∧ u.Fresh v q

/-- What the merge writes at `p`: a non-directory, and a whiteout in a directory that is copied whole. -/
def Leaves : Prop := (∃ l, u p = some (.leaf l)) ∨ (u p = some .whiteout ∧ u.Inside v p)

/-- What the merge forgets, at `p` and below. -/
def Clears : Prop :=
  ∃ q, q <+: p ∧ (u q = some .whiteout ∨ (∃ m, u q = some (.directory m true)) ∨ u.Fresh v q)

open Classical in
/-- The overlay reading of `u` over `v`. -/
noncomputable def overlay : Option (Cell L M) :=
  match u p with
  | some .whiteout => none
  | some c => some c.plain
  | none => if u.Covers p then none else v p

open Classical in
/-- What the merge makes of `u` over `v`. -/
noncomputable def merge : Option (Cell L M) :=
  match u p with
  | some .whiteout => if u.Inside v p then some .whiteout else none
  | some c => some c.plain
  | none => if u.Covers p then none else v p

open Classical in
/-- The layer that the merge notes for `p`. -/
noncomputable def note (u v : View K L M) (i : Nat) (f : List K → Option Nat) (p : List K) : Option Nat :=
  if u.Leaves v p then some i else if u.Clears v p then none else f p

variable {u v p}

theorem Covers.mono {q : List K} (h : u.Covers q) (hq : q <+: p) : u.Covers p := by
  obtain ⟨r, habove, hcase⟩ := h
  exact ⟨r, habove.trans hq, hcase⟩

theorem Buries.touches (h : u.Buries p) : u.Touches p := by
  obtain ⟨q, l, habove, hq⟩ := h
  exact .inr ⟨q, habove, .inr (.inl ⟨l, hq⟩)⟩

theorem Leaves.ne_none (h : u.Leaves v p) : u p ≠ none := by
  rcases h with ⟨l, hl⟩ | ⟨hw, -⟩
  · rw [hl]
    exact nofun
  · rw [hw]
    exact nofun

theorem overlay_untouched (h : ¬ u.Touches p) : u.overlay v p = v p := by
  obtain ⟨hnone, hcovers⟩ := not_or.mp h
  simp only [overlay, not_not.mp hnone, if_neg hcovers]

theorem overlay_touched (h : u.Touches p) : u.overlay v p = (u p).bind Cell.read := by
  cases hp : u p with
  | none =>
    have hcovers : u.Covers p := h.resolve_left (not_not.mpr hp)
    simp only [overlay, hp, if_pos hcovers, Option.bind_none]
  | some c => cases c <;> simp only [overlay, hp, Option.bind_some, Cell.read, Cell.plain]

/-- The merge and the reading differ in the whiteouts that are left. -/
theorem merge_eq (h : ¬ (u p = some .whiteout ∧ u.Inside v p)) : u.merge v p = u.overlay v p := by
  cases hp : u p with
  | none => simp only [merge, overlay, hp]
  | some c =>
    cases c with
    | whiteout =>
      have hinside : ¬ u.Inside v p := fun hinside => h ⟨hp, hinside⟩
      simp only [merge, overlay, hp, if_neg hinside]
    | leaf l => simp only [merge, overlay, hp]
    | directory m hides => simp only [merge, overlay, hp]

theorem Shaped.overlay (hu : u.Shaped) (hv : v.Shaped) : Shaped (u.overlay v) := by
  intro q p habove hne
  cases hp : u p with
  | some c =>
    obtain ⟨m, hides, hq⟩ := hu q p habove (by rw [hp]; exact nofun)
    exact ⟨m, false, by simp only [View.overlay, hq, Cell.plain]⟩
  | none =>
    have hcovers : ¬ u.Covers p := fun hcovers => hne (by simp only [View.overlay, hp, if_pos hcovers])
    rw [overlay_untouched (not_or.mpr ⟨not_not.mpr hp, hcovers⟩)] at hne
    cases hq : u q with
    | none =>
      have hcovers' : ¬ u.Covers q := fun h => hcovers (h.mono habove.1)
      obtain ⟨m, hides, hdir⟩ := hv q p habove hne
      exact ⟨m, hides, by rw [overlay_untouched (not_or.mpr ⟨not_not.mpr hq, hcovers'⟩), hdir]⟩
    | some c =>
      cases c with
      | leaf l => exact absurd ⟨q, habove, .inr (.inl ⟨l, hq⟩)⟩ hcovers
      | whiteout => exact absurd ⟨q, habove, .inl hq⟩ hcovers
      | directory m hides => exact ⟨m, false, by simp only [View.overlay, hq, Cell.plain]⟩

/-! Only the directories below matter to what is fresh. -/

variable {v' : View K L M}

theorem inside_congr (h : ∀ q, v.IsDir q ↔ v'.IsDir q) : u.Inside v p ↔ u.Inside v' p :=
  exists_congr fun q => and_congr_right fun _ => and_congr_right fun _ => imp_congr_left (h q)

theorem note_congr (h : ∀ q, v.IsDir q ↔ v'.IsDir q) {i : Nat} {f : List K → Option Nat} :
    u.note v i f p = u.note v' i f p := by
  have hleaves : u.Leaves v p ↔ u.Leaves v' p := or_congr_right (and_congr_right fun _ => inside_congr h)
  have hclears : u.Clears v p ↔ u.Clears v' p :=
    exists_congr fun q => and_congr_right fun _ => or_congr_right (or_congr_right (and_congr_right fun _ =>
      imp_congr_left (h q)))
  unfold note
  rw [propext hleaves, propext hclears]

end View

/-! ### Going down one name -/

section Down
variable {u v : View K L M} {p : List K} {k : K} {m : M} {i : Nat} {f : List K → Option Nat}

namespace View

def sub (v : View K L M) (k : K) : View K L M := fun p => v (k :: p)

/-- Nothing stands below what is not a directory. -/
theorem Shaped.eq_none (h : v.Shaped) (hroot : ¬ v.IsDir []) (k : K) (p : List K) : v (k :: p) = none := by
  by_contra hne
  exact hroot (h [] (k :: p) (above_nil_cons k p) hne)

theorem covers_cons (hu : u [] = some (.directory m false)) : u.Covers (k :: p) ↔ (u.sub k).Covers p := by
  constructor
  · rintro ⟨q, habove, hcase⟩
    rcases above_cons.mp habove with rfl | ⟨q', rfl, habove'⟩
    · rw [hu] at hcase
      simp at hcase
    · exact ⟨q', habove', hcase⟩
  · rintro ⟨q', habove, hcase⟩
    exact ⟨k :: q', above_cons.mpr (.inr ⟨q', rfl, habove⟩), hcase⟩

theorem fresh_cons (hu : u [] = some (.directory m false)) : u.Fresh v (k :: p) ↔ (u.sub k).Fresh (v.sub k) p := by
  refine and_congr_right fun _ => imp_congr_right fun _ => ?_
  constructor
  · rintro ⟨q, m', habove, hq⟩
    rcases above_cons.mp habove with rfl | ⟨q', rfl, habove'⟩
    · rw [hu] at hq
      simp at hq
    · exact ⟨q', m', habove', hq⟩
  · rintro ⟨q', m', habove, hq⟩
    exact ⟨k :: q', m', above_cons.mpr (.inr ⟨q', rfl, habove⟩), hq⟩

theorem not_fresh_nil (hv : v.IsDir []) : ¬ u.Fresh v [] := fun h => by
  obtain ⟨q, -, habove, -⟩ := h.2 hv
  exact not_above_nil habove

theorem inside_cons (hu : u [] = some (.directory m false)) (hv : v.IsDir []) :
    u.Inside v (k :: p) ↔ (u.sub k).Inside (v.sub k) p := by
  constructor
  · rintro ⟨q, habove, hfresh⟩
    rcases above_cons.mp habove with rfl | ⟨q', rfl, habove'⟩
    · exact absurd hfresh (not_fresh_nil hv)
    · exact ⟨q', habove', (fresh_cons hu).mp hfresh⟩
  · rintro ⟨q', habove, hfresh⟩
    exact ⟨k :: q', above_cons.mpr (.inr ⟨q', rfl, habove⟩), (fresh_cons hu).mpr hfresh⟩

theorem leaves_cons (hu : u [] = some (.directory m false)) (hv : v.IsDir []) :
    u.Leaves v (k :: p) ↔ (u.sub k).Leaves (v.sub k) p :=
  or_congr_right (and_congr_right fun _ => inside_cons hu hv)

theorem clears_cons (hu : u [] = some (.directory m false)) (hv : v.IsDir []) :
    u.Clears v (k :: p) ↔ (u.sub k).Clears (v.sub k) p := by
  constructor
  · rintro ⟨q, hpre, hcase⟩
    rcases List.prefix_cons_iff.mp hpre with rfl | ⟨q', rfl, hpre'⟩
    · rw [hu] at hcase
      simp [not_fresh_nil hv] at hcase
    · exact ⟨q', hpre', hcase.imp_right (Or.imp_right (fresh_cons hu).mp)⟩
  · rintro ⟨q', hpre, hcase⟩
    exact ⟨k :: q', (List.prefix_cons_inj k).mpr hpre, hcase.imp_right (Or.imp_right (fresh_cons hu).mpr)⟩

theorem merge_cons (hu : u [] = some (.directory m false)) (hv : v.IsDir []) :
    u.merge v (k :: p) = (u.sub k).merge (v.sub k) p := by
  have hcovers := propext (covers_cons (p := p) (k := k) hu)
  have hinside := propext (inside_cons (p := p) (k := k) hu hv)
  unfold merge
  rw [hcovers, hinside]
  rfl

theorem note_cons (hu : u [] = some (.directory m false)) (hv : v.IsDir []) :
    u.note v i f (k :: p) = (u.sub k).note (v.sub k) i (fun p => f (k :: p)) p := by
  have hleaves := propext (leaves_cons (p := p) (k := k) hu hv)
  have hclears := propext (clears_cons (p := p) (k := k) hu hv)
  unfold note
  rw [hleaves, hclears]

theorem note_nil (hu : u [] = some (.directory m false)) (hv : v.IsDir []) : u.note v i f [] = f [] := by
  have hleaves : ¬ u.Leaves v [] := fun h => by simp [Leaves, hu] at h
  have hclears : ¬ u.Clears v [] := by
    rintro ⟨q, hpre, hcase⟩
    rw [List.prefix_nil.mp hpre, hu] at hcase
    simp [not_fresh_nil hv] at hcase
  rw [note, if_neg hleaves, if_neg hclears]

/-! ### What stands at the root of a view -/

theorem merge_none (hu : u [] = none) (hshape : u.Shaped) : u.merge v p = v p := by
  have hnone : ∀ q, u q = none := fun q => by
    cases q with
    | nil => exact hu
    | cons k q => exact hshape.eq_none (fun ⟨_, _, h⟩ => by rw [hu] at h; cases h) k q
  have hcovers : ¬ u.Covers p := fun ⟨q, _, hcase⟩ => by simp [hnone q] at hcase
  simp only [merge, hnone, if_neg hcovers]

theorem note_none (hu : u [] = none) (hshape : u.Shaped) : u.note v i f p = f p := by
  have hnone : ∀ q, u q = none := fun q => by
    cases q with
    | nil => exact hu
    | cons k q => exact hshape.eq_none (fun ⟨_, _, h⟩ => by rw [hu] at h; cases h) k q
  have hleaves : ¬ u.Leaves v p := fun h => by simp [Leaves, hnone p] at h
  have hclears : ¬ u.Clears v p := fun ⟨q, _, hcase⟩ => by simp [hnone q, Fresh, IsDir] at hcase
  rw [note, if_neg hleaves, if_neg hclears]

theorem merge_leaf {l : L} (hu : u [] = some (.leaf l)) (hshape : u.Shaped) : u.merge v p = u p := by
  cases p with
  | nil => simp only [merge, hu, Cell.plain]
  | cons k p =>
    have hnone := hshape.eq_none (fun ⟨_, _, h⟩ => by rw [hu] at h; cases h) k p
    have hcovers : u.Covers (k :: p) := ⟨[], above_nil_cons k p, .inr (.inl ⟨l, hu⟩)⟩
    simp only [merge, hnone, if_pos hcovers]

theorem note_leaf {l : L} (hu : u [] = some (.leaf l)) (hshape : u.Shaped) :
    u.note v i f p = if p = [] then some i else f p := by
  cases p with
  | nil => rw [note, if_pos (.inl ⟨l, hu⟩), if_pos rfl]
  | cons k p =>
    have hdir : ¬ u.IsDir [] := fun ⟨_, _, h⟩ => by rw [hu] at h; cases h
    have hleaves : ¬ u.Leaves v (k :: p) := fun h => by simp [Leaves, hshape.eq_none hdir k p] at h
    have hclears : ¬ u.Clears v (k :: p) := by
      rintro ⟨q, -, hcase⟩
      cases q with
      | nil => simp [hu, Fresh, hdir] at hcase
      | cons k' q => simp [hshape.eq_none hdir k' q, Fresh, IsDir] at hcase
    rw [note, if_neg hleaves, if_neg hclears, if_neg (List.cons_ne_nil k p)]

theorem merge_whiteout (hu : u [] = some .whiteout) (hshape : u.Shaped) : u.merge v p = none := by
  cases p with
  | nil =>
    have hinside : ¬ u.Inside v [] := fun ⟨q, habove, _⟩ => not_above_nil habove
    simp only [merge, hu, if_neg hinside]
  | cons k p =>
    have hnone := hshape.eq_none (fun ⟨_, _, h⟩ => by rw [hu] at h; cases h) k p
    have hcovers : u.Covers (k :: p) := ⟨[], above_nil_cons k p, .inl hu⟩
    simp only [merge, hnone, if_pos hcovers]

theorem note_whiteout (hu : u [] = some .whiteout) (hshape : u.Shaped) : u.note v i f p = none := by
  have hleaves : ¬ u.Leaves v p := by
    cases p with
    | nil => simp [Leaves, hu, Inside, not_above_nil]
    | cons k p =>
      have hnone := hshape.eq_none (fun ⟨_, _, h⟩ => by rw [hu] at h; cases h) k p
      simp [Leaves, hnone]
  rw [note, if_neg hleaves, if_pos ⟨[], List.nil_prefix, .inl hu⟩]

/-- A directory that meets none is copied whole. -/
theorem merge_fresh (hu : u.IsDir []) (hv : ¬ v.IsDir []) (hshape : v.Shaped) :
    u.merge v p = (u p).map Cell.plain := by
  cases p with
  | nil =>
    obtain ⟨m, hides, hu⟩ := hu
    simp only [merge, hu, Option.map_some]
  | cons k p =>
    have hinside : u.Inside v (k :: p) := ⟨[], above_nil_cons k p, hu, fun h => absurd h hv⟩
    cases hp : u (k :: p) with
    | none => simp [merge, hp, hshape.eq_none hv k p]
    | some c => cases c <;> simp [merge, hp, hinside, Cell.plain]

theorem note_fresh (hu : u.IsDir []) (hv : ¬ v.IsDir []) : u.note v i f p = (u p).bind (Cell.noted i) := by
  have hclears : u.Clears v p := ⟨[], List.nil_prefix, .inr (.inr ⟨hu, fun h => absurd h hv⟩)⟩
  cases hp : u p with
  | none =>
    have hleaves : ¬ u.Leaves v p := fun h => by simp [Leaves, hp] at h
    rw [note, if_neg hleaves, if_pos hclears, Option.bind_none]
  | some c =>
    cases c with
    | leaf l => rw [note, if_pos (.inl ⟨l, hp⟩), Option.bind_some, Cell.noted]
    | whiteout =>
      have hinside : u.Inside v p := by
        cases p with
        | nil =>
          obtain ⟨m, hides, hu⟩ := hu
          rw [hu] at hp
          cases hp
        | cons k p => exact ⟨[], above_nil_cons k p, hu, fun h => absurd h hv⟩
      rw [note, if_pos (.inr ⟨hp, hinside⟩), Option.bind_some, Cell.noted]
    | directory m hides =>
      have hleaves : ¬ u.Leaves v p := fun h => by simp [Leaves, hp] at h
      rw [note, if_neg hleaves, if_pos hclears, Option.bind_some, Cell.noted]

/-- The view, as if its root did not hide anything. -/
def shown (u : View K L M) : View K L M
  | [] => (u []).map Cell.plain
  | k :: p => u (k :: p)

def rootOnly (v : View K L M) : View K L M
  | [] => v []
  | _ :: _ => none

theorem fresh_hiding (hu : u [] = some (.directory m true)) (hv : v.IsDir []) :
    u.Fresh v p ↔ u.shown.Fresh v.rootOnly p := by
  cases p with
  | nil => exact iff_of_false (not_fresh_nil hv) (not_fresh_nil hv)
  | cons k p =>
    refine and_congr_right fun _ => iff_of_true (fun _ => ⟨[], m, above_nil_cons k p, hu⟩) ?_
    rintro ⟨_, _, h⟩
    cases h

theorem leaves_hiding (hu : u [] = some (.directory m true)) (hv : v.IsDir []) :
    u.Leaves v p ↔ u.shown.Leaves v.rootOnly p := by
  cases p with
  | nil => simp [Leaves, hu, shown, Cell.plain]
  | cons k p =>
    exact or_congr_right (and_congr_right fun _ => exists_congr fun q => and_congr_right fun _ => fresh_hiding hu hv)

/-- A directory that hides is merged into what is left of the directory it meets. -/
theorem merge_hiding (hu : u [] = some (.directory m true)) (hv : v.IsDir []) :
    u.merge v p = u.shown.merge v.rootOnly p := by
  cases p with
  | nil => simp [merge, hu, shown, Cell.plain]
  | cons k p =>
    have hinside : u.Inside v (k :: p) ↔ u.shown.Inside v.rootOnly (k :: p) :=
      exists_congr fun q => and_congr_right fun _ => fresh_hiding hu hv
    have hcovers : u.Covers (k :: p) := ⟨[], above_nil_cons k p, .inr (.inr ⟨m, hu⟩)⟩
    have hshown : u.shown (k :: p) = u (k :: p) := rfl
    have hnone : v.rootOnly (k :: p) = none := rfl
    cases hp : u (k :: p) with
    | none => simp [merge, hshown, hp, hcovers, hnone]
    | some c =>
      unfold merge
      rw [hshown, hp, propext hinside]
      cases c <;> rfl

theorem note_hiding (hu : u [] = some (.directory m true)) (hv : v.IsDir []) :
    u.note v i f p = u.shown.note v.rootOnly i (fun _ => none) p := by
  have hclears : u.Clears v p := ⟨[], List.nil_prefix, .inr (.inl ⟨m, hu⟩)⟩
  unfold note
  rw [propext (leaves_hiding hu hv), if_pos hclears, ite_self]

end View
end Down

end Iii.Lib.Overlay
