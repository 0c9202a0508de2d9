import Mathlib.Algebra.Ring.Nat
import Mathlib.Data.List.TakeWhile
import Iii.Lib.Glob
import Iii.Registry.Operations

/-! Patterns of function ids, and the `match(...)` they are wrapped in (`workers/worker/rbac_config.rs`).

A pattern is compared from left to right: the first piece stands at the start, every other piece is taken at its
leftmost place, and the last one has to end the value. That is glob matching (`wildcardMatch_iff`).

A grant or a rule may wrap its pattern in `match("...")`. The wrapping is recognised by what the text begins with and
by what it ends with, and is then cut off by fixed offsets. In `match(")` the beginning and the end share the quote, and
the cut panics; that text, in both spellings of the quote, is the only one where it does (`parseMatchPattern_eq`). -/
namespace Iii.Rbac
open Lib
open Registry (isWhitespace)

/-! ### Wildcards -/

/-- The pieces from `i` on, in `value[pos..]`. -/
def matchParts (value : List Char) : (i pos : Nat) → (parts : List (List Char)) → Bool
  | _, _, [] => true
  | i, pos, part :: parts =>
    if part.isEmpty then matchParts value (i + 1) pos parts
    else
      match findPiece part (value.drop pos) with
      | some found =>
        if i = 0 && found ≠ 0 then false else matchParts value (i + 1) (pos + (found + part.length)) parts
      | none => false

def wildcardMatch (pattern value : String) : Bool :=
  if pattern = "*" then true
  else
    let parts := pattern.toList.splitOn '*'
    if parts.length = 1 then pattern = value
    else
      matchParts value.toList 0 0 parts &&
        match parts.getLast? with
        | some last => last.isEmpty || last.isSuffixOf value.toList
        | none => true

/-- After the first piece the search is for the others in order. -/
theorem matchParts_succ (value : List Char) (parts : List (List Char)) (i pos : Nat) :
    matchParts value (i + 1) pos parts = true ↔ Scattered parts (value.drop pos) := by
  induction parts generalizing i pos with
  | nil => exact ⟨fun _ => trivial, fun _ => rfl⟩
  | cons part parts ih =>
    unfold matchParts
    by_cases hempty : part.isEmpty
    · obtain rfl := List.isEmpty_iff.mp hempty
      rw [if_pos List.isEmpty_nil, ih, scattered_nil_cons]
    · rw [if_neg hempty]
      cases hfind : findPiece part (value.drop pos) with
      | none =>
        have hnone : ¬ Scattered (part :: parts) (value.drop pos) := not_scattered_of_findPiece hfind
        simp [hnone]
      | some found =>
        rw [scattered_of_findPiece hfind, List.drop_drop]
        simp only [Nat.add_eq_zero_iff, Nat.one_ne_zero, and_false, decide_false, Bool.false_and, Bool.false_eq_true,
          if_false]
        exact ih _ _

theorem findPiece_eq_zero {α : Type} [DecidableEq α] {piece text : List α} (h : piece <+: text) :
    findPiece piece text = some 0 := by
  cases text with
  | nil => simp [findPiece, List.isPrefixOf_iff_prefix.mpr h]
  | cons a text => simp [findPiece, List.isPrefixOf_iff_prefix.mpr h]

/-- The first piece has to stand at the start. -/
theorem matchParts_zero (value part : List Char) (parts : List (List Char)) :
    matchParts value 0 0 (part :: parts) = true ↔ part <+: value ∧ Scattered parts (value.drop part.length) := by
  unfold matchParts
  by_cases hempty : part.isEmpty
  · obtain rfl := List.isEmpty_iff.mp hempty
    rw [if_pos List.isEmpty_nil, matchParts_succ]
    simp
  · rw [if_neg hempty, List.drop_zero]
    cases hfind : findPiece part value with
    | none =>
      have hnone : ¬ part <+: value := fun ⟨rest, hrest⟩ => findPiece_none hfind [] rest hrest.symm
      simp [hnone]
    | some found =>
      by_cases hzero : found = 0
      · subst hzero
        have hstart : part <+: value := (findPiece_some hfind).1
        simp only [ne_eq, not_true_eq_false, decide_false, Bool.and_false, Bool.false_eq_true, if_false, matchParts_succ,
          hstart, true_and, Nat.zero_add]
      · have hnone : ¬ part <+: value := fun h => hzero (Option.some.inj (hfind.symm.trans (findPiece_eq_zero h)))
        simp [hzero, hnone]

/-- `split('*')` and the stars between its pieces are the pattern. -/
theorem splitOn_eq_singleton {text piece : List Char} (h : text.splitOn '*' = [piece]) : piece = text := by
  have hjoin : ['*'].intercalate (text.splitOn '*') = text := List.intercalate_splitOn '*'
  rw [h] at hjoin
  simpa [List.intercalate] using hjoin

/-- A value matches a pattern when it is the literal pieces of the pattern in order, with some text for each star. -/
theorem wildcardMatch_iff (pattern value : String) :
    wildcardMatch pattern value = true ↔ Glob (pattern.toList.splitOn '*') value.toList := by
  unfold wildcardMatch
  split
  · next hstar =>
    subst hstar
    have hparts : "*".toList.splitOn '*' = [[], []] := by decide
    rw [hparts, glob_cons]
    exact ⟨fun _ => ⟨value.toList, [], by simp, glob_singleton.mpr rfl⟩, fun _ => rfl⟩
  · rcases hsplit : pattern.toList.splitOn '*' with _ | ⟨part, parts⟩
    · exact absurd hsplit (List.splitOn_ne_nil _ _)
    · rcases parts with _ | ⟨next, parts⟩
      · have hwhole := splitOn_eq_singleton hsplit
        simp [glob_singleton, hwhole, String.ext_iff]
      · have hne : next :: parts ≠ [] := List.cons_ne_nil _ _
        have hlast : (part :: next :: parts).getLast? = some ((next :: parts).getLast hne) := by
          rw [List.getLast?_eq_some_getLast (List.cons_ne_nil _ _), List.getLast_cons hne]
        have hends : ∀ last : List Char, (last.isEmpty || last.isSuffixOf value.toList) = true ↔ last <:+ value.toList := by
          intro last
          cases last <;> simp
        simp only [hlast, List.length_cons, Nat.add_eq_right, Nat.add_eq_zero_iff, Nat.one_ne_zero, and_false, if_false,
          Bool.and_eq_true, matchParts_zero, hends, glob_iff hne, and_assoc]

structure WildcardPattern where
  raw : String
deriving DecidableEq

def WildcardPattern.matches (pattern : WildcardPattern) (value : String) : Bool := wildcardMatch pattern.raw value

theorem length_splitOn (text : List Char) : (text.splitOn '*').length = text.count '*' + 1 := by
  induction text with
  | nil => rfl
  | cons c text ih =>
    rw [List.splitOn_cons_eq_if_modifyHead, List.count_cons]
    split
    · rw [List.length_cons, ih]
    · rw [List.length_modifyHead, ih, Nat.add_zero]

/-- A value matches a pattern when it is the literal pieces in order with one text, which may be empty, for every
star. -/
theorem matches_glob (pattern : WildcardPattern) (value : String) :
    pattern.matches value = true ↔
      ∃ gaps : List (List Char), gaps.length = pattern.raw.toList.count '*' ∧
        weave (pattern.raw.toList.splitOn '*') gaps = value.toList := by
  unfold WildcardPattern.matches
  rw [wildcardMatch_iff, Glob, length_splitOn]
  simp only [Nat.add_right_cancel_iff]

-- Three stars, two of them next to each other; the last piece may not share its text with the one before.
example : wildcardMatch "a*é**é" "aéxé" = true ∧ wildcardMatch "a*éb*b" "aéb" = false := by decide

/-! ### Slices -/

inductive Panic where
  /-- A string index that is out of order, out of bounds or inside a character. -/
  | slice
deriving DecidableEq

/-- `str::len`. -/
def utf8Len (text : List Char) : Nat := (text.map Char.utf8Size).sum

/-- `text[n..]`. -/
def dropBytes : (n : Nat) → (text : List Char) → Option (List Char)
  | 0, text => some text
  | _ + 1, [] => none
  | n + 1, c :: text => if c.utf8Size ≤ n + 1 then dropBytes (n + 1 - c.utf8Size) text else none

/-- `text[..n]`. -/
def takeBytes : (n : Nat) → (text : List Char) → Option (List Char)
  | 0, _ => some []
  | _ + 1, [] => none
  | n + 1, c :: text => if c.utf8Size ≤ n + 1 then (takeBytes (n + 1 - c.utf8Size) text).map (c :: ·) else none

/-- `text[start..stop]`. -/
def slice (text : List Char) (start stop : Nat) : Except Panic (List Char) :=
  if stop < start then .error .slice
  else
    match (takeBytes stop text).bind (dropBytes start) with
    | some part => .ok part
    | none => .error .slice

@[simp] theorem utf8Len_nil : utf8Len [] = 0 := rfl

@[simp] theorem utf8Len_cons (c : Char) (text : List Char) : utf8Len (c :: text) = c.utf8Size + utf8Len text := by
  simp [utf8Len]

@[simp] theorem utf8Len_append (a b : List Char) : utf8Len (a ++ b) = utf8Len a + utf8Len b := by
  simp [utf8Len]

theorem dropBytes_append (a b : List Char) : dropBytes (utf8Len a) (a ++ b) = some b := by
  induction a with
  | nil => cases b <;> rfl
  | cons c a ih =>
    have hpos := c.utf8Size_pos
    obtain ⟨n, hn⟩ : ∃ n, utf8Len (c :: a) = n + 1 := ⟨utf8Len (c :: a) - 1, by rw [utf8Len_cons]; omega⟩
    rw [hn, List.cons_append, dropBytes, ← hn, utf8Len_cons, if_pos (Nat.le_add_right _ _), Nat.add_sub_cancel_left, ih]

theorem takeBytes_append (a b : List Char) : takeBytes (utf8Len a) (a ++ b) = some a := by
  induction a with
  | nil => cases b <;> rfl
  | cons c a ih =>
    have hpos := c.utf8Size_pos
    obtain ⟨n, hn⟩ : ∃ n, utf8Len (c :: a) = n + 1 := ⟨utf8Len (c :: a) - 1, by rw [utf8Len_cons]; omega⟩
    rw [hn, List.cons_append, takeBytes, ← hn, utf8Len_cons, if_pos (Nat.le_add_right _ _), Nat.add_sub_cancel_left, ih]
    rfl

/-- What stands between a beginning and an end is cut out by their lengths. -/
theorem slice_between (a mid b : List Char) :
    slice (a ++ mid ++ b) (utf8Len a) (utf8Len (a ++ mid ++ b) - utf8Len b) = .ok mid := by
  have hstop : utf8Len (a ++ mid ++ b) - utf8Len b = utf8Len (a ++ mid) := by
    rw [utf8Len_append]
    omega
  have hle : ¬ utf8Len (a ++ mid) < utf8Len a := by
    rw [utf8Len_append]
    omega
  rw [slice, hstop, if_neg hle, takeBytes_append, Option.bind_some, dropBytes_append]

/-! ### The wrapping -/

/-- `str::trim`. -/
def trim (text : List Char) : List Char :=
  ((text.dropWhile isWhitespace).reverse.dropWhile isWhitespace).reverse

/-- A text is what `trim` leaves of it, between white space. -/
theorem trim_spec (text : List Char) : ∃ l r, (∀ c ∈ l, isWhitespace c = true) ∧
    (∀ c ∈ r, isWhitespace c = true) ∧ text = l ++ trim text ++ r := by
  refine ⟨text.takeWhile isWhitespace, ((text.dropWhile isWhitespace).reverse.takeWhile isWhitespace).reverse,
    fun c hc => List.mem_takeWhile_imp hc, fun c hc => List.mem_takeWhile_imp (List.mem_reverse.mp hc), ?_⟩
  rw [trim, List.append_assoc, ← List.reverse_append, List.takeWhile_append_dropWhile, List.reverse_reverse,
    List.takeWhile_append_dropWhile]

theorem dropWhile_space {space text : List Char} (hspace : ∀ c ∈ space, isWhitespace c = true)
    (htext : ∀ c, text.head? = some c → isWhitespace c = false) : (space ++ text).dropWhile isWhitespace = text := by
  rw [List.dropWhile_append_of_pos hspace]
  cases text with
  | nil => rfl
  | cons c text => exact List.dropWhile_cons_of_neg (by simp [htext c rfl])

theorem trim_between {l text r : List Char} (hne : text ≠ []) (hl : ∀ c ∈ l, isWhitespace c = true)
    (hr : ∀ c ∈ r, isWhitespace c = true) (hfirst : ∀ c, text.head? = some c → isWhitespace c = false)
    (hlast : ∀ c, text.getLast? = some c → isWhitespace c = false) : trim (l ++ text ++ r) = text := by
  have hfirst' : ∀ c, (text ++ r).head? = some c → isWhitespace c = false := by
    intro c hc
    rw [List.head?_append_of_ne_nil _ hne] at hc
    exact hfirst c hc
  have hlast' : ∀ c, text.reverse.head? = some c → isWhitespace c = false := by
    intro c hc
    rw [List.head?_reverse] at hc
    exact hlast c hc
  rw [trim, List.append_assoc, dropWhile_space hl hfirst', List.reverse_append,
    dropWhile_space (fun c hc => hr c (List.mem_reverse.mp hc)) hlast', List.reverse_reverse]

def opening (quote : Char) : List Char := "match(".toList ++ [quote]

def closing (quote : Char) : List Char := [quote, ')']

/-- By `delta`: an equation lemma would evaluate the literal. -/
theorem opening_eq (quote : Char) : opening quote = "match(".toList ++ [quote] := by
  delta opening
  rfl

def parseMatchPattern (s : String) : Except Panic (Option String) :=
  let trimmed := trim s.toList
  if (opening '"').isPrefixOf trimmed && (closing '"').isSuffixOf trimmed ||
      (opening '\'').isPrefixOf trimmed && (closing '\'').isSuffixOf trimmed then
    (slice trimmed 7 (utf8Len trimmed - 2)).map fun pattern => some (String.ofList pattern)
  else .ok none

/-- The text, less the blanks around it, is `pattern` between quotes in `match(..)`. -/
def Wraps (s : String) (pattern : List Char) : Prop :=
  ∃ quote, (quote = '"' ∨ quote = '\'') ∧ trim s.toList = opening quote ++ pattern ++ closing quote

/-- The text begins and ends as a wrapped pattern does, with one quote for both. -/
def Overlaps (s : String) : Prop :=
  ∃ quote, (quote = '"' ∨ quote = '\'') ∧ trim s.toList = opening quote ++ [')']

instance (s : String) : Decidable (Overlaps s) :=
  decidable_of_iff (trim s.toList = opening '"' ++ [')'] ∨ trim s.toList = opening '\'' ++ [')']) (by
    simp [Overlaps])

/-- The beginning and the end are there: they are apart, or share the quote. -/
theorem wrapped_or_overlapped {quote : Char} (hquote : quote ≠ ')') {text : List Char} :
    opening quote <+: text ∧ closing quote <:+ text ↔
      (∃ pattern, text = opening quote ++ pattern ++ closing quote) ∨ text = opening quote ++ [')'] := by
  constructor
  · rintro ⟨⟨rest, rfl⟩, front, hfront⟩
    have hfront : opening quote ++ rest = front ++ [quote] ++ [')'] := by
      rw [← hfront, closing, List.append_assoc]
      rfl
    obtain rfl | ⟨rest, c, rfl⟩ := List.eq_nil_or_concat rest
    · -- The beginning ends in a quote, the end in a parenthesis.
      have hlast := congrArg List.getLast? hfront
      rw [List.append_nil, opening_eq, List.getLast?_concat, List.getLast?_concat] at hlast
      exact absurd (Option.some.inj hlast) hquote
    · rw [List.concat_eq_append, ← List.append_assoc] at hfront
      obtain ⟨hrest, hc⟩ := List.append_inj' hfront rfl
      obtain rfl : c = ')' := by simpa using hc
      obtain rfl | ⟨pattern, d, rfl⟩ := List.eq_nil_or_concat rest
      · exact .inr rfl
      · rw [List.concat_eq_append, ← List.append_assoc] at hrest
        obtain ⟨-, hd⟩ := List.append_inj' hrest rfl
        obtain rfl : d = quote := by simpa using hd
        exact .inl ⟨pattern, by simp [closing]⟩
  · rintro (⟨pattern, rfl⟩ | rfl)
    · exact ⟨⟨pattern ++ closing quote, by simp⟩, ⟨opening quote ++ pattern, rfl⟩⟩
    · exact ⟨⟨[')'], rfl⟩, ⟨"match(".toList, by simp [opening_eq, closing]⟩⟩

theorem utf8Len_opening {quote : Char} (h : quote = '"' ∨ quote = '\'') : utf8Len (opening quote) = 7 := by
  rcases h with rfl | rfl <;> decide

theorem utf8Len_closing {quote : Char} (h : quote = '"' ∨ quote = '\'') : utf8Len (closing quote) = 2 := by
  rcases h with rfl | rfl <;> decide

/-- When the text begins and ends as a wrapped pattern does. -/
theorem begins_and_ends_iff (s : String) :
    ((opening '"').isPrefixOf (trim s.toList) && (closing '"').isSuffixOf (trim s.toList) ||
      (opening '\'').isPrefixOf (trim s.toList) && (closing '\'').isSuffixOf (trim s.toList)) = true ↔
      (∃ pattern, Wraps s pattern) ∨ Overlaps s := by
  simp only [Bool.or_eq_true, Bool.and_eq_true, List.isPrefixOf_iff_prefix, List.isSuffixOf_iff_suffix,
    wrapped_or_overlapped (show '"' ≠ ')' by decide), wrapped_or_overlapped (show '\'' ≠ ')' by decide), Wraps, Overlaps]
  constructor
  · rintro ((⟨pattern, h⟩ | h) | (⟨pattern, h⟩ | h))
    · exact .inl ⟨pattern, _, .inl rfl, h⟩
    · exact .inr ⟨_, .inl rfl, h⟩
    · exact .inl ⟨pattern, _, .inr rfl, h⟩
    · exact .inr ⟨_, .inr rfl, h⟩
  · rintro (⟨pattern, quote, rfl | rfl, h⟩ | ⟨quote, rfl | rfl, h⟩)
    · exact .inl (.inl ⟨pattern, h⟩)
    · exact .inr (.inl ⟨pattern, h⟩)
    · exact .inl (.inr h)
    · exact .inr (.inr h)

theorem Wraps.unique {s : String} {pattern pattern' : List Char} (h : Wraps s pattern) (h' : Wraps s pattern') :
    pattern = pattern' := by
  obtain ⟨quote, -, h⟩ := h
  obtain ⟨quote', -, h'⟩ := h'
  have hbody := (List.append_inj (h.symm.trans h') (by
    have hlen := congrArg List.length (h.symm.trans h')
    simp only [List.length_append, opening_eq, closing, List.length_cons, List.length_nil] at hlen ⊢
    omega)).1
  exact (List.append_inj hbody (by simp [opening_eq])).2

theorem parseMatchPattern_wraps {s : String} {pattern : List Char} (h : Wraps s pattern) :
    parseMatchPattern s = .ok (some (String.ofList pattern)) := by
  have hends := (begins_and_ends_iff s).mpr (.inl ⟨pattern, h⟩)
  obtain ⟨quote, hquote, htrim⟩ := h
  have hslice : slice (trim s.toList) 7 (utf8Len (trim s.toList) - 2) = .ok pattern := by
    rw [htrim]
    have hcut := slice_between (opening quote) pattern (closing quote)
    rwa [utf8Len_opening hquote, utf8Len_closing hquote] at hcut
  rw [parseMatchPattern, if_pos hends, hslice]
  rfl

theorem parseMatchPattern_overlaps {s : String} (h : Overlaps s) : parseMatchPattern s = .error .slice := by
  have hends := (begins_and_ends_iff s).mpr (.inr h)
  obtain ⟨quote, hquote, htrim⟩ := h
  have hlen : utf8Len (trim s.toList) = 8 := by
    rw [htrim, utf8Len_append, utf8Len_opening hquote]
    rfl
  rw [parseMatchPattern, if_pos hends, hlen, slice, if_pos (by decide)]
  rfl

theorem parseMatchPattern_bare {s : String} (hwraps : ∀ pattern, ¬ Wraps s pattern) (hoverlaps : ¬ Overlaps s) :
    parseMatchPattern s = .ok none := by
  rw [parseMatchPattern, if_neg]
  intro hends
  rcases (begins_and_ends_iff s).mp hends with ⟨pattern, h⟩ | h
  · exact hwraps pattern h
  · exact hoverlaps h

/-- Parsing panics on overlapping text, and says otherwise what the text wraps. -/
theorem parseMatchPattern_eq (s : String) :
    (Overlaps s ∧ parseMatchPattern s = .error .slice) ∨
      (¬ Overlaps s ∧ ∃ parsed, parseMatchPattern s = .ok parsed ∧
        ∀ pattern, parsed = some (String.ofList pattern) ↔ Wraps s pattern) := by
  by_cases hoverlaps : Overlaps s
  · exact .inl ⟨hoverlaps, parseMatchPattern_overlaps hoverlaps⟩
  · refine .inr ⟨hoverlaps, ?_⟩
    by_cases hwraps : ∃ pattern, Wraps s pattern
    · obtain ⟨pattern, h⟩ := hwraps
      refine ⟨_, parseMatchPattern_wraps h, fun pattern' => ⟨fun heq => ?_, fun h' => ?_⟩⟩
      · have hpattern : pattern = pattern' := String.ofList_injective (Option.some.inj heq)
        rwa [← hpattern]
      · rw [h.unique h']
    · have hnone := not_exists.mp hwraps
      refine ⟨none, parseMatchPattern_bare hnone hoverlaps, fun pattern => ⟨fun heq => ?_, fun h => ?_⟩⟩
      · cases heq
      · exact absurd h (hnone pattern)

theorem trim_eq_self {c d : Char} (hc : isWhitespace c = false) (hd : isWhitespace d = false) (text : List Char) :
    trim (c :: (text ++ [d])) = c :: (text ++ [d]) := by
  have hfront : (c :: (text ++ [d])).dropWhile isWhitespace = c :: (text ++ [d]) :=
    List.dropWhile_cons_of_neg (by simp [hc])
  have hback : (c :: (text ++ [d])).reverse = d :: (text.reverse ++ [c]) := by simp
  rw [trim, hfront, hback, List.dropWhile_cons_of_neg (by simp [hd]), ← hback, List.reverse_reverse]

/-- The wrapping that serialization writes. -/
def wrap (pattern : String) : String := String.ofList (opening '"' ++ pattern.toList ++ closing '"')

/-- What a pattern is written as reads back as the pattern, whatever stands in it. -/
theorem wraps_wrap (pattern : String) : Wraps (wrap pattern) pattern.toList := by
  refine ⟨'"', .inl rfl, ?_⟩
  have hshape : opening '"' ++ pattern.toList ++ closing '"' =
      'm' :: ("atch(".toList ++ ['"'] ++ pattern.toList ++ ['"'] ++ [')']) := by
    simp [opening_eq, closing]
  rw [wrap, String.toList_ofList, hshape]
  exact trim_eq_self (by decide) (by decide) _

end Iii.Rbac
