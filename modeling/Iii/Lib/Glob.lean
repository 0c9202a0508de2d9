import Mathlib.Data.List.Infix

/-! Glob patterns: literal pieces with anything between them.

A pattern is the list of its pieces. A text matches when it is the pieces in order with a text of any length in each
gap (`Glob`). A matcher can take every piece at its leftmost place, because a piece further left leaves more room for
the others (`Scattered.append_left`), and look for the last one at the end of the text: where a piece occurs after the
others, its occurrence at the end stands after them too (`glob_iff`). -/
namespace Iii.Lib
variable {α : Type}

/-- The pieces with the gaps between them. -/
def weave : (pieces gaps : List (List α)) → List α
  | [], _ => []
  | [piece], _ => piece
  | piece :: pieces, gaps => piece ++ gaps.headD [] ++ weave pieces gaps.tail

/-- The text is the pieces in order, with anything in each gap. -/
def Glob (pieces : List (List α)) (text : List α) : Prop :=
  ∃ gaps : List (List α), gaps.length + 1 = pieces.length ∧ weave pieces gaps = text

variable {pieces : List (List α)} {text : List α}

theorem glob_singleton {piece : List α} : Glob [piece] text ↔ piece = text := by
  constructor
  · rintro ⟨gaps, -, h⟩
    exact h
  · intro h
    exact ⟨[], rfl, h⟩

theorem glob_cons {piece next : List α} :
    Glob (piece :: next :: pieces) text ↔ ∃ gap rest, text = piece ++ gap ++ rest ∧ Glob (next :: pieces) rest := by
  constructor
  · rintro ⟨gaps, hlen, h⟩
    obtain _ | ⟨gap, gaps⟩ := gaps
    · simp at hlen
    · exact ⟨gap, weave (next :: pieces) gaps, h.symm, gaps, by simpa using hlen, rfl⟩
  · rintro ⟨gap, rest, rfl, gaps, hlen, rfl⟩
    exact ⟨gap :: gaps, by simpa using hlen, rfl⟩

/-! ### Pieces in order -/

/-- The pieces occur one after another, anywhere. -/
def Scattered : (pieces : List (List α)) → (text : List α) → Prop
  | [], _ => True
  | piece :: pieces, text => ∃ gap rest, text = gap ++ piece ++ rest ∧ Scattered pieces rest

/-- More text in front does no harm. -/
theorem Scattered.append_left (h : Scattered pieces text) (front : List α) :
    Scattered pieces (front ++ text) := by
  cases pieces with
  | nil => trivial
  | cons piece pieces =>
    obtain ⟨gap, rest, rfl, h⟩ := h
    exact ⟨front ++ gap, rest, by simp, h⟩

theorem scattered_nil_cons :
    Scattered ([] :: pieces) text ↔ Scattered pieces text := by
  constructor
  · rintro ⟨gap, rest, rfl, h⟩
    exact h.append_left _
  · intro h
    exact ⟨[], text, rfl, h⟩

theorem Scattered.length_le (h : Scattered pieces text) :
    ∀ piece ∈ pieces, piece.length ≤ text.length := by
  induction pieces generalizing text with
  | nil => exact fun _ hpiece => by cases hpiece
  | cons first pieces ih =>
    obtain ⟨gap, rest, rfl, h⟩ := h
    intro piece hpiece
    simp only [List.length_append]
    rcases List.mem_cons.mp hpiece with rfl | hpiece
    · omega
    · have hrest := ih h piece hpiece
      omega

/-- The last piece may stand anywhere after the others, or at the end: it is the same. -/
theorem glob_suffix_iff (hne : pieces ≠ []) :
    (∃ gap rest, text = gap ++ rest ∧ Glob pieces rest) ↔ Scattered pieces text ∧ pieces.getLast hne <:+ text := by
  induction pieces generalizing text with
  | nil => exact absurd rfl hne
  | cons piece pieces ih =>
    cases pieces with
    | nil =>
      constructor
      · rintro ⟨gap, rest, rfl, h⟩
        obtain rfl := glob_singleton.mp h
        exact ⟨⟨gap, [], by simp, trivial⟩, gap, rfl⟩
      · rintro ⟨-, gap, h⟩
        exact ⟨gap, piece, h.symm, glob_singleton.mpr rfl⟩
    | cons next pieces =>
      have ih : ∀ text, (∃ gap rest, text = gap ++ rest ∧ Glob (next :: pieces) rest) ↔
          Scattered (next :: pieces) text ∧ (next :: pieces).getLast (List.cons_ne_nil next pieces) <:+ text :=
        fun text => ih (List.cons_ne_nil next pieces)
      rw [List.getLast_cons (List.cons_ne_nil _ _)]
      constructor
      · rintro ⟨gap, rest, rfl, h⟩
        obtain ⟨gap', rest', rfl, hrest⟩ := glob_cons.mp h
        obtain ⟨hscattered, hsuffix⟩ := (ih (gap' ++ rest')).mp ⟨gap', rest', rfl, hrest⟩
        exact ⟨⟨gap, gap' ++ rest', by simp, hscattered⟩, hsuffix.trans ⟨gap ++ piece, by simp⟩⟩
      · rintro ⟨⟨gap, rest, rfl, hscattered⟩, hsuffix⟩
        have hlong : ((next :: pieces).getLast (List.cons_ne_nil _ _)).length ≤ rest.length :=
          hscattered.length_le _ (List.getLast_mem _)
        have hsuffix' : (next :: pieces).getLast (List.cons_ne_nil _ _) <:+ rest :=
          List.suffix_of_suffix_length_le hsuffix (List.suffix_append _ _) hlong
        obtain ⟨gap', rest', rfl, h⟩ := (ih rest).mpr ⟨hscattered, hsuffix'⟩
        exact ⟨gap, piece ++ gap' ++ rest', by simp, glob_cons.mpr ⟨gap', rest', rfl, h⟩⟩

/-- The first piece stands at the start, the others somewhere after it, the last one at the end. -/
theorem glob_iff {piece : List α} (hne : pieces ≠ []) :
    Glob (piece :: pieces) text ↔
      piece <+: text ∧ Scattered pieces (text.drop piece.length) ∧ pieces.getLast hne <:+ text := by
  obtain _ | ⟨next, pieces⟩ := pieces
  · exact absurd rfl hne
  · rw [glob_cons]
    constructor
    · rintro ⟨gap, rest, rfl, h⟩
      obtain ⟨hscattered, hsuffix⟩ := (glob_suffix_iff hne).mp ⟨gap, rest, rfl, h⟩
      refine ⟨⟨gap ++ rest, by simp⟩, ?_, hsuffix.trans ⟨piece, by simp⟩⟩
      rwa [List.append_assoc, List.drop_left]
    · rintro ⟨⟨rest, rfl⟩, hscattered, hsuffix⟩
      rw [List.drop_left] at hscattered
      have hlong := hscattered.length_le _ (List.getLast_mem hne)
      have hsuffix' := List.suffix_of_suffix_length_le hsuffix (List.suffix_append piece rest) hlong
      obtain ⟨gap, rest', rfl, h⟩ := (glob_suffix_iff hne).mpr ⟨hscattered, hsuffix'⟩
      exact ⟨gap, rest', by simp, h⟩

/-! ### The leftmost place -/

section Find
variable [DecidableEq α]

/-- Where the piece first occurs. -/
def findPiece (piece : List α) : List α → Option Nat
  | [] => if piece.isPrefixOf [] then some 0 else none
  | a :: rest => if piece.isPrefixOf (a :: rest) then some 0 else (findPiece piece rest).map (· + 1)

variable {piece text : List α}

/-- The piece stands at the place found, and nowhere before it. -/
theorem findPiece_some {i : Nat} (h : findPiece piece text = some i) :
    piece <+: text.drop i ∧ ∀ gap rest, text = gap ++ piece ++ rest → i ≤ gap.length := by
  induction text generalizing i with
  | nil =>
    simp only [findPiece, Option.ite_none_right_eq_some, Option.some.injEq] at h
    obtain ⟨hstart, rfl⟩ := h
    exact ⟨List.isPrefixOf_iff_prefix.mp hstart, fun _ _ _ => Nat.zero_le _⟩
  | cons a text ih =>
    unfold findPiece at h
    split at h
    · next hstart =>
      obtain rfl : 0 = i := by simpa using h
      exact ⟨List.isPrefixOf_iff_prefix.mp hstart, fun _ _ _ => Nat.zero_le _⟩
    · next hstart =>
      obtain ⟨j, hj, rfl⟩ := Option.map_eq_some_iff.mp h
      obtain ⟨hstands, hfirst⟩ := ih hj
      refine ⟨by simpa using hstands, fun gap rest hsplit => ?_⟩
      obtain _ | ⟨b, gap⟩ := gap
      · -- The piece would stand at the start, which was tried.
        exact absurd (List.isPrefixOf_iff_prefix.mpr ⟨rest, hsplit.symm⟩) hstart
      · have htail : text = gap ++ piece ++ rest := by simpa using (List.cons.inj hsplit).2
        simpa using hfirst gap rest htail

theorem findPiece_none (h : findPiece piece text = none) :
    ∀ gap rest, text ≠ gap ++ piece ++ rest := by
  induction text with
  | nil =>
    intro gap rest hsplit
    obtain ⟨-, rfl, rfl⟩ : gap = [] ∧ piece = [] ∧ rest = [] := by simpa using hsplit.symm
    simp [findPiece] at h
  | cons a text ih =>
    intro gap rest hsplit
    unfold findPiece at h
    split at h
    · cases h
    · next hstart =>
      obtain _ | ⟨b, gap⟩ := gap
      · exact hstart (List.isPrefixOf_iff_prefix.mpr ⟨rest, hsplit.symm⟩)
      · exact ih (by simpa using h) gap rest (by simpa using (List.cons.inj hsplit).2)

/-- Taken at its leftmost place, a piece leaves the others all the room there is. -/
theorem scattered_of_findPiece {pieces : List (List α)} {i : Nat} (h : findPiece piece text = some i) :
    Scattered (piece :: pieces) text ↔ Scattered pieces (text.drop (i + piece.length)) := by
  obtain ⟨⟨rest, hrest⟩, hfirst⟩ := findPiece_some h
  have htext : text = text.take i ++ piece ++ rest := by
    rw [List.append_assoc, hrest, List.take_append_drop]
  have hdrop : text.drop (i + piece.length) = rest := by
    rw [← List.drop_drop, ← hrest, List.drop_left]
  rw [hdrop]
  constructor
  · rintro ⟨gap, rest', hsplit, hscattered⟩
    have hle := hfirst gap rest' hsplit
    -- What is left after the leftmost place contains what is left after any other.
    have hfront : rest = (text.drop (i + piece.length)).take (gap.length - i) ++ rest' := by
      have hlong : rest' = (text.drop (i + piece.length)).drop (gap.length - i) := by
        rw [List.drop_drop, hsplit, show i + piece.length + (gap.length - i) = (gap ++ piece).length by
          rw [List.length_append]; omega, List.drop_left]
      rw [hlong, List.take_append_drop, hdrop]
    rw [hfront]
    exact hscattered.append_left _
  · intro hscattered
    exact ⟨text.take i, rest, htext, hscattered⟩

theorem not_scattered_of_findPiece {pieces : List (List α)} (h : findPiece piece text = none) :
    ¬ Scattered (piece :: pieces) text := by
  rintro ⟨gap, rest, hsplit, -⟩
  exact findPiece_none h gap rest hsplit

end Find

end Iii.Lib
