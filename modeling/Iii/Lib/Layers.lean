import Iii.Lib.Overlay

/-! What a list of layers comes to, path by path.

The topmost layer that touches a path decides what is read there, and the last one that writes or
forgets a path decides what is noted (`decided`). The merge leaves a whiteout where a layer has one
in a directory it copies whole and no later layer touches that place, and it keeps a wrong note
where a later layer buries a path and none clears it. So the merge is the reading exactly when
every such whiteout is touched and every such note cleared later on. -/
namespace Iii.Lib.Overlay
variable {K L M : Type}

/-! ### Splitting the list -/

theorem concat_eq_split {U : Type} {us below above : List U} {u w : U} :
    us ++ [w] = below ++ u :: above ↔
      (us = below ∧ w = u ∧ above = []) ∨ ∃ above', above = above' ++ [w] ∧ us = below ++ u :: above' := by
  constructor
  · intro heq
    rcases List.eq_nil_or_concat above with rfl | ⟨above', w', rfl⟩
    · obtain ⟨rfl, hw⟩ := List.append_inj' heq rfl
      exact .inl ⟨rfl, (List.cons.inj hw).1, rfl⟩
    · have heq' : us ++ [w] = (below ++ u :: above') ++ [w'] := by simpa using heq
      obtain ⟨rfl, hw⟩ := List.append_inj' heq' rfl
      cases hw
      exact .inr ⟨above', by simp, rfl⟩
  · rintro (⟨rfl, rfl, rfl⟩ | ⟨above', rfl, rfl⟩)
    · rfl
    · simp

/-- The last element that decides, decides. -/
theorem decided {U α : Type} (run : List U → Option α) (d : List U → U → Option (Option α)) (hnil : run [] = none)
    (hstep : ∀ us u, run (us ++ [u]) = (d us u).getD (run us)) (us : List U) (a : α) :
    run us = some a ↔ ∃ below u above, us = below ++ u :: above ∧ d below u = some (some a) ∧
      ∀ mid w top, above = mid ++ w :: top → d (below ++ u :: mid) w = none := by
  induction us using List.reverseRecOn with
  | nil => simp [hnil]
  | append_singleton us w ih =>
    rw [hstep]
    constructor
    · intro h
      cases hd : d us w with
      | some r =>
        rw [hd, Option.getD_some] at h
        exact ⟨us, w, [], rfl, by rw [hd, h], fun mid w' top heq => by simp at heq⟩
      | none =>
        rw [hd, Option.getD_none] at h
        obtain ⟨below, u, above, rfl, hu, habove⟩ := ih.mp h
        refine ⟨below, u, above ++ [w], by simp, hu, fun mid w' top heq => ?_⟩
        rcases concat_eq_split.mp heq with ⟨rfl, rfl, -⟩ | ⟨top, -, rfl⟩
        · exact hd
        · exact habove mid w' top rfl
    · rintro ⟨below, u, above, heq, hu, habove⟩
      rcases concat_eq_split.mp heq with ⟨rfl, rfl, -⟩ | ⟨above, rfl, rfl⟩
      · rw [hu, Option.getD_some]
      · rw [habove above w [] rfl, Option.getD_none]
        exact ih.mpr ⟨below, u, above, rfl, hu, fun mid w' top heq => habove mid w' (top ++ [w]) (by simp [heq])⟩

theorem split_compare {U : Type} {a b c d : List U} {x y : U} (h : a ++ x :: b = c ++ y :: d) :
    (∃ e, c = a ++ x :: e ∧ b = e ++ y :: d) ∨ (a = c ∧ x = y ∧ b = d) ∨ ∃ e, a = c ++ y :: e ∧ d = e ++ x :: b := by
  rcases List.append_eq_append_iff.mp h with ⟨e, hc, hb⟩ | ⟨e, ha, hd⟩
  · cases e with
    | nil =>
      obtain ⟨rfl, rfl⟩ := List.cons.inj hb
      exact .inr (.inl ⟨by simpa using hc.symm, rfl, rfl⟩)
    | cons z e =>
      obtain ⟨rfl, rfl⟩ := List.cons.inj hb
      exact .inl ⟨e, hc, rfl⟩
  · cases e with
    | nil =>
      obtain ⟨rfl, rfl⟩ := List.cons.inj hd
      exact .inr (.inl ⟨by simpa using ha, rfl, rfl⟩)
    | cons z e =>
      obtain ⟨rfl, rfl⟩ := List.cons.inj hd
      exact .inr (.inr ⟨e, ha, rfl⟩)

theorem exists_first {U : Type} {P : U → Prop} {l : List U} (h : ∃ w ∈ l, P w) :
    ∃ mid w top, l = mid ++ w :: top ∧ P w ∧ ∀ x ∈ mid, ¬ P x := by
  induction l with
  | nil =>
    obtain ⟨w, hw, -⟩ := h
    cases hw
  | cons x l ih =>
    by_cases hx : P x
    · exact ⟨[], x, l, rfl, hx, fun _ hy => nomatch hy⟩
    · obtain ⟨w, hw, hPw⟩ := h
      rcases List.mem_cons.mp hw with rfl | hw
      · exact absurd hPw hx
      · obtain ⟨mid, w', top, rfl, hw', hmid⟩ := ih ⟨w, hw, hPw⟩
        refine ⟨x :: mid, w', top, rfl, hw', fun y hy => ?_⟩
        rcases List.mem_cons.mp hy with rfl | hy
        · exact hx
        · exact hmid y hy

theorem exists_last {U : Type} (P : U → Prop) (us : List U) :
    ∃ a b, us = a ++ b ∧ (a = [] ∨ ∃ a' w, a = a' ++ [w] ∧ P w) ∧ ∀ w ∈ b, ¬ P w := by
  induction us using List.reverseRecOn with
  | nil => exact ⟨[], [], rfl, .inl rfl, fun _ hw => nomatch hw⟩
  | append_singleton us w ih =>
    by_cases hw : P w
    · exact ⟨us ++ [w], [], by simp, .inr ⟨us, w, rfl, hw⟩, fun _ hx => nomatch hx⟩
    · obtain ⟨a, b, rfl, ha, hb⟩ := ih
      refine ⟨a, b ++ [w], by simp, ha, fun x hx => ?_⟩
      rcases List.mem_append.mp hx with hx | hx
      · exact hb x hx
      · rwa [List.mem_singleton.mp hx]

/-! ### The reading, the merge and the notes -/

section Runs
variable (m₀ : M)

/-- An empty directory. -/
def bare : View K L M
  | [] => some (.directory m₀ false)
  | _ :: _ => none

/-- The overlay reading of the layers, from the bottom to the top. -/
noncomputable def read (us : List (View K L M)) : View K L M := us.foldl (fun v u => u.overlay v) (bare m₀)

noncomputable def merged (us : List (View K L M)) : View K L M := us.foldl (fun v u => u.merge v) (bare m₀)

/-- The notes, over the layers from the top to the bottom. -/
noncomputable def notesDown : List (View K L M) → List K → Option Nat
  | [] => fun _ => none
  | u :: below => u.note (read m₀ below.reverse) below.length (notesDown below)

noncomputable def notes (us : List (View K L M)) : List K → Option Nat := notesDown m₀ us.reverse

variable {m₀} {us a b : List (View K L M)} {u : View K L M} {p : List K}

theorem read_concat : read m₀ (us ++ [u]) = u.overlay (read m₀ us) := by
  rw [read, List.foldl_append]
  rfl

theorem merged_concat : merged m₀ (us ++ [u]) = u.merge (merged m₀ us) := by
  rw [merged, List.foldl_append]
  rfl

theorem notes_concat : notes m₀ (us ++ [u]) = u.note (read m₀ us) us.length (notes m₀ us) := by
  simp [notes, notesDown]

theorem read_untouched (h : ∀ w ∈ b, ¬ w.Touches p) : read m₀ (a ++ b) p = read m₀ a p := by
  induction b using List.reverseRecOn with
  | nil => rw [List.append_nil]
  | append_singleton b w ih =>
    rw [← List.append_assoc, read_concat, View.overlay_untouched (h w (by simp)),
      ih fun x hx => h x (List.mem_append_left _ hx)]

theorem read_split_untouched (h : ∀ w ∈ b, ¬ w.Touches p) :
    read m₀ (a ++ u :: b) p = u.overlay (read m₀ a) p := by
  rw [← List.concat_append, List.concat_eq_append, read_untouched h, read_concat]

theorem shaped_bare : (bare m₀ : View K L M).Shaped := by
  intro q p habove hne
  cases p with
  | nil => exact absurd habove not_above_nil
  | cons k p => exact absurd rfl hne

theorem shaped_read (h : ∀ u ∈ us, u.Shaped) : (read m₀ us).Shaped := by
  induction us using List.reverseRecOn with
  | nil => exact shaped_bare
  | append_singleton us u ih =>
    rw [read_concat]
    exact (h u (by simp)).overlay (ih fun x hx => h x (List.mem_append_left _ hx))

theorem read_plain {m : M} : read m₀ us p ≠ some (.directory m true) ∧ read m₀ us p ≠ some .whiteout := by
  induction us using List.reverseRecOn with
  | nil => cases p <;> simp [read, bare]
  | append_singleton us u ih =>
    rw [read_concat]
    by_cases htouch : u.Touches p
    · rw [View.overlay_touched htouch]
      cases u p with
      | none => simp
      | some c => cases c <;> simp [Cell.read]
    · rw [View.overlay_untouched htouch]
      exact ih

/-- The merge is the reading, apart from the whiteouts that are left. -/
theorem merged_cases (m₀ : M) (us : List (View K L M)) (p : List K) :
    merged m₀ us p = read m₀ us p ∨ (read m₀ us p = none ∧ merged m₀ us p = some .whiteout) := by
  induction us using List.reverseRecOn generalizing p with
  | nil => exact .inl rfl
  | append_singleton us u ih =>
    rw [merged_concat, read_concat]
    by_cases hleft : u p = some .whiteout ∧ u.Inside (merged m₀ us) p
    · exact .inr ⟨by simp only [View.overlay, hleft.1], by simp only [View.merge, hleft.1, if_pos hleft.2]⟩
    · rw [View.merge_eq hleft]
      by_cases htouch : u.Touches p
      · rw [View.overlay_touched htouch, View.overlay_touched htouch]
        exact .inl rfl
      · rw [View.overlay_untouched htouch, View.overlay_untouched htouch]
        exact ih p

theorem isDir_merged : (merged m₀ us).IsDir p ↔ (read m₀ us).IsDir p := by
  unfold View.IsDir
  rcases merged_cases m₀ us p with h | ⟨hread, hmerged⟩
  · rw [h]
  · simp [hread, hmerged]

/-- A whiteout is left where no later layer touches it. -/
theorem merged_whiteout : merged m₀ us p = some .whiteout ↔ ∃ below u above, us = below ++ u :: above ∧
    (u p = some .whiteout ∧ u.Inside (read m₀ below) p) ∧ ∀ w ∈ above, ¬ w.Touches p := by
  induction us using List.reverseRecOn with
  | nil => cases p <;> simp [merged, bare]
  | append_singleton us u ih =>
    have hinside : u.Inside (merged m₀ us) p ↔ u.Inside (read m₀ us) p := View.inside_congr fun q => isDir_merged
    rw [merged_concat]
    constructor
    · intro h
      by_cases hleft : u p = some .whiteout ∧ u.Inside (merged m₀ us) p
      · exact ⟨us, u, [], rfl, ⟨hleft.1, hinside.mp hleft.2⟩, fun _ hw => absurd hw List.not_mem_nil⟩
      · rw [View.merge_eq hleft] at h
        by_cases htouch : u.Touches p
        · rw [View.overlay_touched htouch] at h
          cases hp : u p with
          | none => simp [hp] at h
          | some c => cases c <;> simp [hp, Cell.read] at h
        · rw [View.overlay_untouched htouch] at h
          obtain ⟨below, x, above, rfl, hx, habove⟩ := ih.mp h
          refine ⟨below, x, above ++ [u], by simp, hx, fun w hw => ?_⟩
          rcases List.mem_append.mp hw with hw | hw
          · exact habove w hw
          · rw [List.mem_singleton.mp hw]
            exact htouch
    · rintro ⟨below, x, above, heq, hx, habove⟩
      rcases concat_eq_split.mp heq with ⟨rfl, rfl, -⟩ | ⟨above, rfl, rfl⟩
      · simp only [View.merge, hx.1, if_pos (hinside.mpr hx.2)]
      · have htouch : ¬ u.Touches p := habove u (by simp)
        have hnone : u p = none := by
          by_contra hne
          exact htouch (.inl hne)
        rw [View.merge_eq (fun h => by simp [hnone] at h), View.overlay_untouched htouch]
        exact ih.mpr ⟨below, x, above, rfl, hx, fun w hw => habove w (List.mem_append_left _ hw)⟩

/-- The note of a path is of the last layer that left something there, unless it was cleared. -/
theorem notes_eq_some {i : Nat} : notes m₀ us p = some i ↔ ∃ below u above, us = below ++ u :: above ∧
    (u.Leaves (read m₀ below) p ∧ below.length = i) ∧ ∀ mid w top, above = mid ++ w :: top →
      ¬ w.Leaves (read m₀ (below ++ u :: mid)) p ∧ ¬ w.Clears (read m₀ (below ++ u :: mid)) p := by
  classical
  have hdecided := decided (fun us => notes m₀ us p)
    (fun us (u : View K L M) => if u.Leaves (read m₀ us) p then some (some us.length)
      else if u.Clears (read m₀ us) p then some none else none) rfl (fun us u => by
        rw [notes_concat, View.note]
        split
        · rfl
        · split <;> rfl) us i
  rw [hdecided]
  refine exists_congr fun below => exists_congr fun u => exists_congr fun above => and_congr_right fun _ => ?_
  refine and_congr ?_ (forall_congr' fun mid => forall_congr' fun w => forall_congr' fun top => imp_congr_right fun _ => ?_)
  · by_cases hleaves : u.Leaves (read m₀ below) p <;> simp [hleaves]
  · by_cases hleaves : w.Leaves (read m₀ (below ++ u :: mid)) p
    · simp [hleaves]
    · simp [hleaves]

/-- A path that was left and not cleared since has a note. -/
theorem notes_ne_none {below above : List (View K L M)} (hleaves : u.Leaves (read m₀ below) p)
    (hclears : ∀ mid w top, above = mid ++ w :: top → ¬ w.Clears (read m₀ (below ++ u :: mid)) p) :
    notes m₀ (below ++ u :: above) p ≠ none := by
  induction above using List.reverseRecOn with
  | nil =>
    rw [notes_concat, View.note, if_pos hleaves]
    exact Option.some_ne_none _
  | append_singleton above w ih =>
    rw [← List.cons_append, ← List.append_assoc, notes_concat, View.note]
    split
    · exact Option.some_ne_none _
    · rw [if_neg (hclears above w [] rfl)]
      exact ih fun mid x top heq => hclears mid x (top ++ [w]) (by simp [heq])

/-- Where there is a directory that was not there before, a layer made it. -/
theorem exists_fresh (hbefore : ¬ (read m₀ a).IsDir p) (h : (read m₀ (a ++ b)).IsDir p) :
    ∃ mid w top, b = mid ++ w :: top ∧ w.Fresh (read m₀ (a ++ mid)) p := by
  induction b using List.reverseRecOn with
  | nil =>
    rw [List.append_nil] at h
    exact absurd h hbefore
  | append_singleton b w ih =>
    by_cases hdir : (read m₀ (a ++ b)).IsDir p
    · obtain ⟨mid, x, top, rfl, hx⟩ := ih hdir
      exact ⟨mid, x, top ++ [w], by simp, hx⟩
    · refine ⟨b, w, [], rfl, ?_, fun hd => absurd hd hdir⟩
      rw [← List.append_assoc, read_concat] at h
      obtain ⟨m, hides, h⟩ := h
      by_cases htouch : w.Touches p
      · rw [View.overlay_touched htouch] at h
        cases hp : w p with
        | none => simp [hp] at h
        | some c =>
          cases c with
          | leaf l => simp [hp, Cell.read] at h
          | whiteout => simp [hp, Cell.read] at h
          | directory m' hides' => exact ⟨m', hides', hp⟩
      · rw [View.overlay_untouched htouch] at h
        exact absurd ⟨m, hides, h⟩ hdir

/-! ### When nothing is left and every note is right -/

/-- Layer `i` is the topmost that touches `p`, and has a non-directory there. -/
def Supplies (us : List (View K L M)) (i : Nat) (p : List K) : Prop :=
  ∃ below u above, us = below ++ u :: above ∧ below.length = i ∧ (∃ l, u p = some (.leaf l)) ∧
    ∀ w ∈ above, ¬ w.Touches p

structure Settled (m₀ : M) (us : List (View K L M)) : Prop where
  whiteouts : ∀ below u above p, us = below ++ u :: above → u p = some .whiteout → u.Inside (read m₀ below) p →
    ∃ w ∈ above, w.Touches p
  notes : ∀ below u above p, us = below ++ u :: above → u.Leaves (read m₀ below) p → (∃ w ∈ above, w.Buries p) →
    ∃ mid w top, above = mid ++ w :: top ∧ w.Clears (read m₀ (below ++ u :: mid)) p

theorem whiteouts_iff : (∀ p, merged m₀ us p ≠ some .whiteout) ↔ ∀ below u above p, us = below ++ u :: above →
    u p = some .whiteout → u.Inside (read m₀ below) p → ∃ w ∈ above, w.Touches p := by
  constructor
  · intro h below u above p heq hu hinside
    by_contra huntouched
    refine h p (merged_whiteout.mpr ⟨below, u, above, heq, ⟨hu, hinside⟩, fun w hw htouch => ?_⟩)
    exact huntouched ⟨w, hw, htouch⟩
  · intro h p hp
    obtain ⟨below, u, above, heq, ⟨hu, hinside⟩, habove⟩ := merged_whiteout.mp hp
    obtain ⟨w, hw, htouch⟩ := h below u above p heq hu hinside
    exact habove w hw htouch

theorem merged_eq_read (h : ∀ p, merged m₀ us p ≠ some .whiteout) (p : List K) : merged m₀ us p = read m₀ us p :=
  (merged_cases m₀ us p).resolve_right fun hleft => h p hleft.2

theorem read_of_supplies {i : Nat} (h : Supplies us i p) : ∃ l, read m₀ us p = some (.leaf l) := by
  obtain ⟨below, u, above, rfl, -, ⟨l, hl⟩, habove⟩ := h
  exact ⟨l, by rw [read_split_untouched habove, View.overlay, hl]; rfl⟩

/-- A layer that touches a path where there is no directory buries it, or else leaves something
there or clears it. -/
theorem buries_of_touches {v : View K L M} (h : u.Touches p) (hv : ¬ v.IsDir p) (hleaves : ¬ u.Leaves v p)
    (hclears : ¬ u.Clears v p) : u.Buries p := by
  cases hp : u p with
  | some c =>
    cases c with
    | leaf l => exact absurd (.inl ⟨l, hp⟩) hleaves
    | whiteout => exact absurd ⟨p, List.prefix_rfl, .inl hp⟩ hclears
    | directory m hides =>
      exact absurd ⟨p, List.prefix_rfl, .inr (.inr ⟨⟨m, hides, hp⟩, fun hd => absurd hd hv⟩)⟩ hclears
  | none =>
    obtain ⟨q, habove, hcase⟩ := h.resolve_left (not_not.mpr hp)
    rcases hcase with hw | ⟨l, hl⟩ | hd
    · exact absurd ⟨q, habove.1, .inl hw⟩ hclears
    · exact ⟨q, l, habove, hl⟩
    · exact absurd ⟨q, habove.1, .inr (.inl hd)⟩ hclears

/-- A layer that does not touch a path that is there clears nothing. -/
theorem not_clears_of_untouched {v : View K L M} (h : ¬ u.Touches p) (hshape : v.Shaped) (hv : v p ≠ none) :
    ¬ u.Clears v p := by
  obtain ⟨hnone, hcovers⟩ := not_or.mp h
  replace hnone := not_not.mp hnone
  rintro ⟨q, hpre, hcase⟩
  rcases above_or_eq hpre with rfl | habove
  · simp [hnone, View.Fresh, View.IsDir] at hcase
  · rcases hcase with hw | hd | ⟨-, hfresh⟩
    · exact hcovers ⟨q, habove, .inl hw⟩
    · exact hcovers ⟨q, habove, .inr (.inr hd)⟩
    · obtain ⟨r, m, hr, hd⟩ := hfresh (hshape q p habove hv)
      exact hcovers ⟨r, hr.trans hpre, .inr (.inr ⟨m, hd⟩)⟩

theorem notes_of_supplies (hshape : ∀ u ∈ us, u.Shaped) {i : Nat} (h : Supplies us i p) : notes m₀ us p = some i := by
  obtain ⟨below, u, above, rfl, hi, ⟨l, hl⟩, habove⟩ := h
  refine notes_eq_some.mpr ⟨below, u, above, rfl, ⟨.inl ⟨l, hl⟩, hi⟩, ?_⟩
  rintro mid w top rfl
  have hw : ¬ w.Touches p := habove w (by simp)
  have hread : read m₀ (below ++ u :: mid) p = some (.leaf l) := by
    rw [read_split_untouched fun x hx => habove x (List.mem_append_left _ hx), View.overlay, hl]
    rfl
  refine ⟨fun hleaves => hw (.inl hleaves.ne_none), not_clears_of_untouched hw ?_ (by simp [hread])⟩
  exact shaped_read fun x hx => hshape x (by simp only [List.mem_append, List.mem_cons] at hx ⊢; tauto)

theorem supplies_of_notes (hsettled : Settled m₀ us) {i : Nat} (h : notes m₀ us p = some i) : Supplies us i p := by
  obtain ⟨below, u, above, rfl, ⟨hleaves, hi⟩, habove⟩ := notes_eq_some.mp h
  have huntouched : ∀ w ∈ above, ¬ w.Touches p := by
    intro w hw htouch
    obtain ⟨mid, x, top, rfl, hx, hmid⟩ := exists_first (P := fun w => w.Touches p) ⟨w, hw, htouch⟩
    obtain ⟨hxleaves, hxclears⟩ := habove mid x top rfl
    have hdir : ¬ (read m₀ (below ++ u :: mid)).IsDir p := by
      rintro ⟨m, hides, hread⟩
      rw [read_split_untouched hmid, View.overlay] at hread
      rcases hleaves with ⟨l, hl⟩ | ⟨hwhite, -⟩
      · rw [hl] at hread
        cases hread
      · rw [hwhite] at hread
        cases hread
    obtain ⟨mid', x', top', heq, hclears⟩ := hsettled.notes below u _ p rfl hleaves
      ⟨x, by simp, buries_of_touches hx hdir hxleaves hxclears⟩
    exact (habove mid' x' top' heq).2 hclears
  rcases hleaves with hl | ⟨hwhite, hinside⟩
  · exact ⟨below, u, above, rfl, hi, hl, huntouched⟩
  · obtain ⟨w, hw, htouch⟩ := hsettled.whiteouts below u above p rfl hwhite hinside
    exact absurd htouch (huntouched w hw)

/-- Where every note is right, what is buried is cleared. -/
theorem clears_of_supplies (hshape : ∀ u ∈ us, u.Shaped)
    (h : ∀ p i, notes m₀ us p = some i → Supplies us i p) {below above : List (View K L M)}
    (heq : us = below ++ u :: above) (hleaves : u.Leaves (read m₀ below) p) (hburied : ∃ w ∈ above, w.Buries p) :
    ∃ mid w top, above = mid ++ w :: top ∧ w.Clears (read m₀ (below ++ u :: mid)) p := by
  by_contra hnever
  have hclears : ∀ mid w top, above = mid ++ w :: top → ¬ w.Clears (read m₀ (below ++ u :: mid)) p :=
    fun mid w top hsplit hc => hnever ⟨mid, w, top, hsplit, hc⟩
  obtain ⟨i, hi⟩ := Option.ne_none_iff_exists'.mp (heq ▸ notes_ne_none hleaves hclears)
  obtain ⟨below', u', above', heq', -, ⟨l', hl'⟩, hlast⟩ := h p i hi
  obtain ⟨w, hw, hburies⟩ := hburied
  obtain ⟨m₁, m₂, rfl⟩ := List.append_of_mem hw
  -- the layer that buries the path comes before the one that supplies it
  have hsplit : (below ++ u :: m₁) ++ w :: m₂ = below' ++ u' :: above' := by
    rw [← heq', heq]
    simp
  rcases split_compare hsplit with ⟨e, hbelow, hrest⟩ | ⟨-, rfl, -⟩ | ⟨e, -, habove'⟩
  · obtain ⟨q, l, hq, hwq⟩ := hburies
    have hnot : ¬ (read m₀ ((below ++ u :: m₁) ++ [w])).IsDir q := by
      rintro ⟨m, hides, hread⟩
      rw [read_concat, View.overlay, hwq] at hread
      cases hread
    have hdir' : u'.IsDir q := hshape u' (by rw [heq']; simp) q p hq (by simp [hl'])
    by_cases hdir : (read m₀ (((below ++ u :: m₁) ++ [w]) ++ e)).IsDir q
    · obtain ⟨mid, x, top, rfl, hx⟩ := exists_fresh hnot hdir
      refine hclears (m₁ ++ w :: mid) x (top ++ u' :: above') (by rw [hrest]; simp) ⟨q, hq.1, .inr (.inr ?_)⟩
      simpa using hx
    · refine hclears (m₁ ++ w :: e) u' above' (by rw [hrest]; simp) ⟨q, hq.1, .inr (.inr ⟨hdir', fun hd => ?_⟩)⟩
      exact absurd (by simpa using hd) hdir
  · obtain ⟨q, l, hq, hwq⟩ := hburies
    obtain ⟨m, hides, hdir⟩ := hshape w (by rw [heq']; simp) q p hq (by simp [hl'])
    rw [hwq] at hdir
    cases hdir
  · exact hlast w (by rw [habove']; simp) hburies.touches

/-! ### Roots that are left out -/

/-- The view with an empty directory's root. -/
def View.rootless (m₀ : M) (u : View K L M) : View K L M
  | [] => some (.directory m₀ false)
  | k :: p => u (k :: p)

/-- The root of the topmost layer is like that of an empty directory, and a root that hides has
nothing to hide. -/
structure RootsPlain (m₀ : M) (us : List (View K L M)) : Prop where
  top : ∀ below u, us = below ++ [u] → (u []).map Cell.plain = some (.directory m₀ false)
  hidden : ∀ below u above p, us = below ++ u :: above → (∃ m, u [] = some (.directory m true)) → p ≠ [] →
    read m₀ (below.map (View.rootless m₀)) p ≠ none → ∃ w ∈ u :: above, (w.rootless m₀).Touches p

theorem View.Shaped.rootless (h : u.Shaped) : (u.rootless m₀).Shaped := by
  intro q p habove hne
  cases q with
  | nil => exact ⟨m₀, false, rfl⟩
  | cons k q =>
    cases p with
    | nil => exact absurd habove not_above_nil
    | cons k' p => exact h (k :: q) (k' :: p) habove hne

theorem covers_rootless {k : K} : u.Covers (k :: p) ↔
    (u.rootless m₀).Covers (k :: p) ∨ u [] = some .whiteout ∨ (∃ l, u [] = some (.leaf l)) ∨
      ∃ m, u [] = some (.directory m true) := by
  constructor
  · rintro ⟨q, habove, hcase⟩
    cases q with
    | nil => exact .inr hcase
    | cons k' q => exact .inl ⟨k' :: q, habove, hcase⟩
  · rintro (⟨q, habove, hcase⟩ | hcase)
    · cases q with
      | nil => simp [View.rootless] at hcase
      | cons k' q => exact ⟨k' :: q, habove, hcase⟩
    · exact ⟨[], above_nil_cons k p, hcase⟩

theorem touches_rootless (m₀ : M) (hroot : u.IsDir []) (hp : p ≠ []) :
    u.Touches p ↔ (u.rootless m₀).Touches p ∨ ∃ m, u [] = some (.directory m true) := by
  obtain ⟨k, p, rfl⟩ := List.exists_cons_of_ne_nil hp
  obtain ⟨m, hides, hroot⟩ := hroot
  have hcovers : u.Covers (k :: p) ↔ (u.rootless m₀).Covers (k :: p) ∨ ∃ m, u [] = some (.directory m true) := by
    rw [covers_rootless]
    refine or_congr_right ⟨fun h => ?_, fun h => .inr (.inr h)⟩
    rw [hroot] at h ⊢
    simpa using h
  rw [View.Touches, hcovers, ← or_assoc]
  rfl

theorem read_nil : read m₀ (us.map (View.rootless m₀)) [] = some (.directory m₀ false) := by
  induction us using List.reverseRecOn with
  | nil => rfl
  | append_singleton us u ih =>
    rw [List.map_append, List.map_singleton, read_concat]
    rfl

/-- Above what no layer has, nothing turns up. -/
theorem read_none (h : read m₀ a p = none) (hb : ∀ w ∈ b, w p = none) : read m₀ (a ++ b) p = none := by
  induction b using List.reverseRecOn with
  | nil => rwa [List.append_nil]
  | append_singleton b w ih =>
    rw [← List.append_assoc, read_concat]
    by_cases htouch : w.Touches p
    · rw [View.overlay_touched htouch, hb w (by simp)]
      rfl
    · rw [View.overlay_untouched htouch]
      exact ih fun x hx => hb x (List.mem_append_left _ hx)

theorem rootless_apply (hp : p ≠ []) : u.rootless m₀ p = u p := by
  obtain ⟨k, p, rfl⟩ := List.exists_cons_of_ne_nil hp
  rfl

/-- Over layers that do not touch a path, only a root that hides makes a difference. -/
theorem read_rootless_above (hroots : ∀ u ∈ a ++ b, u.IsDir []) (hp : p ≠ [])
    (h : read m₀ (a.map (View.rootless m₀)) p = read m₀ a p)
    (hb : ∀ w ∈ b, ¬ (w.rootless m₀).Touches p)
    (hhidden : ∀ below u above, a ++ b = below ++ u :: above → (∃ m, u [] = some (.directory m true)) →
      read m₀ (below.map (View.rootless m₀)) p ≠ none → ∃ w ∈ u :: above, (w.rootless m₀).Touches p) :
    read m₀ ((a ++ b).map (View.rootless m₀)) p = read m₀ (a ++ b) p := by
  have huntouched : ∀ mid, (∀ w ∈ mid, w ∈ b) →
      read m₀ ((a ++ mid).map (View.rootless m₀)) p = read m₀ (a.map (View.rootless m₀)) p := by
    intro mid hmid
    rw [List.map_append]
    refine read_untouched fun w hw => ?_
    obtain ⟨x, hx, rfl⟩ := List.mem_map.mp hw
    exact hb x (hmid x hx)
  rw [huntouched b fun _ hw => hw]
  by_cases hnone : read m₀ (a.map (View.rootless m₀)) p = none
  · rw [hnone, read_none (h ▸ hnone) fun w hw => ?_]
    by_contra hne
    exact hb w hw (.inl (by rwa [rootless_apply hp]))
  · rw [h, read_untouched fun w hw htouch => ?_]
    rcases (touches_rootless m₀ (hroots w (List.mem_append_right _ hw)) hp).mp htouch with ht | hhides
    · exact hb w hw ht
    · obtain ⟨mid, top, rfl⟩ := List.append_of_mem hw
      obtain ⟨x, hx, ht⟩ := hhidden (a ++ mid) w top (by simp) hhides
        (by rwa [huntouched mid fun x hx => List.mem_append_left _ hx])
      exact hb x (List.mem_append_right _ hx) ht

theorem read_rootless_iff (hroots : ∀ u ∈ us, u.IsDir []) :
    (∀ p, read m₀ (us.map (View.rootless m₀)) p = read m₀ us p) ↔ RootsPlain m₀ us := by
  constructor
  · intro h
    refine ⟨?_, ?_⟩
    · rintro below u rfl
      obtain ⟨m, hides, hu⟩ := hroots u (by simp)
      have hroot := h []
      rw [read_nil, read_concat, View.overlay, hu] at hroot
      rw [hu, Option.map_some]
      exact hroot.symm
    · rintro below u above p rfl ⟨m, hu⟩ hp hread
      by_contra hnever
      have huntouched : ∀ w ∈ u :: above, ¬ (w.rootless m₀).Touches p := fun w hw ht => hnever ⟨w, hw, ht⟩
      have habsent : ∀ w ∈ u :: above, w p = none := by
        intro w hw
        by_contra hne
        exact huntouched w hw (.inl (by rwa [rootless_apply hp]))
      have hkept : read m₀ ((below ++ u :: above).map (View.rootless m₀)) p =
          read m₀ (below.map (View.rootless m₀)) p := by
        rw [List.map_append]
        refine read_untouched fun w hw => ?_
        obtain ⟨x, hx, rfl⟩ := List.mem_map.mp hw
        exact huntouched x hx
      have hgone : read m₀ (below ++ [u]) p = none := by
        have htouch : u.Touches p := (touches_rootless m₀ (hroots u (by simp)) hp).mpr (.inr ⟨m, hu⟩)
        rw [read_concat, View.overlay_touched htouch, habsent u List.mem_cons_self]
        rfl
      have hnone : read m₀ (below ++ u :: above) p = none := by
        have := read_none hgone fun w hw => habsent w (List.mem_cons_of_mem u hw)
        simpa using this
      rw [← hkept, h p] at hread
      exact hread hnone
  · intro h p
    by_cases hp : p = []
    · rw [hp, read_nil]
      rcases List.eq_nil_or_concat us with rfl | ⟨below, u, rfl⟩
      · rfl
      · rw [List.concat_eq_append] at hroots h ⊢
        obtain ⟨m, hides, hu⟩ := hroots u (by simp)
        have htop := h.top below u rfl
        rw [hu] at htop
        rw [read_concat, View.overlay, hu]
        exact htop.symm
    · obtain ⟨a, b, rfl, ha, hb⟩ := exists_last (fun w => (View.rootless m₀ w).Touches p) us
      refine read_rootless_above hroots hp ?_ hb fun below u above heq hhides => h.hidden below u above p heq hhides hp
      rcases ha with rfl | ⟨a, w, rfl, hw⟩
      · rfl
      · have htouch : w.Touches p := (touches_rootless m₀ (hroots w (by simp)) hp).mpr (.inl hw)
        rw [List.map_append, List.map_singleton, read_concat, read_concat, View.overlay_touched hw,
          View.overlay_touched htouch, rootless_apply hp]

theorem supplies_rootless {i : Nat} (hroots : ∀ u ∈ us, u.IsDir []) (h : RootsPlain m₀ us) :
    Supplies (us.map (View.rootless m₀)) i p ↔ Supplies us i p := by
  have hleaf : ∀ u ∈ us, (∃ l, u p = some (.leaf l)) → p ≠ [] := by
    rintro u hu ⟨l, hl⟩ rfl
    obtain ⟨m, hides, hdir⟩ := hroots u hu
    rw [hl] at hdir
    cases hdir
  constructor
  · rintro ⟨below', u', above', heq, hi, ⟨l, hl⟩, habove⟩
    obtain ⟨below, rest, rfl, rfl, hrest⟩ := List.map_eq_append_iff.mp heq
    obtain ⟨u, above, rfl, rfl, rfl⟩ := List.map_eq_cons_iff.mp hrest
    have hp : p ≠ [] := by
      rintro rfl
      cases hl
    rw [rootless_apply hp] at hl
    refine ⟨below, u, above, rfl, by rwa [List.length_map] at hi, ⟨l, hl⟩, fun w hw htouch => ?_⟩
    have huntouched : ∀ x ∈ above, ¬ (x.rootless m₀).Touches p := fun x hx => habove _ (List.mem_map_of_mem hx)
    rcases (touches_rootless m₀ (hroots w (by simp [hw])) hp).mp htouch with ht | hhides
    · exact huntouched w hw ht
    · obtain ⟨mid, top, rfl⟩ := List.append_of_mem hw
      have hread : read m₀ ((below ++ u :: mid).map (View.rootless m₀)) p ≠ none := by
        have hmid : ∀ x ∈ mid.map (View.rootless m₀), ¬ x.Touches p := fun x hx => by
          obtain ⟨y, hy, rfl⟩ := List.mem_map.mp hx
          exact huntouched y (List.mem_append_left _ hy)
        rw [List.map_append, List.map_cons, read_split_untouched hmid, View.overlay, rootless_apply hp, hl]
        exact Option.some_ne_none _
      obtain ⟨x, hx, ht⟩ := h.hidden (below ++ u :: mid) w top p (by simp) hhides hp hread
      exact huntouched x (List.mem_append_right _ hx) ht
  · rintro ⟨below, u, above, rfl, hi, hl, habove⟩
    have hp := hleaf u (by simp) hl
    refine ⟨below.map (View.rootless m₀), u.rootless m₀, above.map (View.rootless m₀), by simp, by rwa [List.length_map], ?_, fun w hw ht => ?_⟩
    · rwa [rootless_apply hp]
    · obtain ⟨x, hx, rfl⟩ := List.mem_map.mp hw
      exact habove x hx ((touches_rootless m₀ (hroots x (by simp [hx])) hp).mpr (.inl ht))

/-- What a merge with notes is to come to: the reading, with nothing of the layers' own signs in it,
and for each path that is not a directory the layer it comes from. -/
structure IsReading (m₀ : M) (us : List (View K L M)) (tree : View K L M) (notes : List K → Option Nat) : Prop where
  reads : ∀ p, tree p = read m₀ us p
  clean : ∀ p, tree p ≠ some .whiteout ∧ ∀ m, tree p ≠ some (.directory m true)
  notes : ∀ p i, notes p = some i ↔ (∃ l, tree p = some (.leaf l)) ∧ Supplies us i p

/-- When the merge, which leaves the roots out, is the reading. -/
theorem isReading_iff (hroots : ∀ u ∈ us, u.IsDir []) (hshape : ∀ u ∈ us, u.Shaped) :
    IsReading m₀ us (merged m₀ (us.map (View.rootless m₀))) (notes m₀ (us.map (View.rootless m₀))) ↔
      RootsPlain m₀ us ∧ Settled m₀ (us.map (View.rootless m₀)) := by
  have hshape' : ∀ u ∈ us.map (View.rootless m₀), u.Shaped := fun u hu => by
    obtain ⟨x, hx, rfl⟩ := List.mem_map.mp hu
    exact (hshape x hx).rootless
  constructor
  · intro h
    have hclean : ∀ p, merged m₀ (us.map (View.rootless m₀)) p ≠ some .whiteout := fun p => (h.clean p).1
    have hplain : RootsPlain m₀ us := by
      refine (read_rootless_iff hroots).mp fun p => ?_
      rw [← merged_eq_read hclean p, h.reads p]
    refine ⟨hplain, whiteouts_iff.mp hclean, fun below u above p heq hleaves hburied => ?_⟩
    refine clears_of_supplies hshape' (fun p i hi => ?_) heq hleaves hburied
    exact (supplies_rootless hroots hplain).mpr ((h.notes p i).mp hi).2
  · rintro ⟨hplain, hsettled⟩
    have hclean := whiteouts_iff.mpr hsettled.whiteouts
    have hreads := (read_rootless_iff hroots).mpr hplain
    refine ⟨fun p => by rw [merged_eq_read hclean p, hreads p], fun p => ⟨hclean p, fun m => ?_⟩, fun p i => ?_⟩
    · rw [merged_eq_read hclean p]
      exact read_plain.1
    · constructor
      · intro hi
        have hsupplies := supplies_of_notes hsettled hi
        rw [merged_eq_read hclean p]
        exact ⟨read_of_supplies hsupplies, (supplies_rootless hroots hplain).mp hsupplies⟩
      · exact fun hi => notes_of_supplies hshape' ((supplies_rootless hroots hplain).mpr hi.2)

end Runs
end Iii.Lib.Overlay
