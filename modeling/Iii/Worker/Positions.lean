import Iii.Worker.Lexing

/-! Scanning by positions and reading off lists.

The scans of `Oversized::envelope` go by positions in a buffer. Forward, a position stands for the
bytes from there on; backward, for the bytes before it in reverse. Each scan finds the place that the
`Reading` finds, so none traps or runs out, and the members found are `heads` and `tails`. -/
namespace Iii.Worker
open Lib

/-- The string that a literal is, if it is one. -/
def stringOf (decode : List Byte → Option String) (literal : List Byte) : Option String :=
  if literal.head? = some quote then decode literal else none

section
variable (decode : List Byte → Option String)

/-- A key and the string that belongs to it. -/
def headEntry : Entry Byte (String × String) := fun l =>
  (couple isJsonSpace (reading forward.string decode) colon
    (reading forward.value fun literal => some (stringOf decode literal)) l).map
      fun ((name, value), r) => (value.map (name, ·), r)

def tailEntry : Entry Byte (String × String) := fun l =>
  (couple isJsonSpace (reading backward.value fun literal => some (stringOf decode literal.reverse)) colon
    (reading backward.string fun literal => decode literal.reverse) l).map
      fun ((value, name), r) => (value.map (name, ·), r)

/-- The comma before the next member. -/
def separator : Scanner Byte := fun l => expect comma (l.dropWhile isJsonSpace)

/-- The string members that a text starts with. -/
def heads (l : List Byte) : List (String × String) :=
  match expect braceOpen (l.dropWhile isJsonSpace) with
  | none => []
  | some r => entries (headEntry decode) separator l.length r

/-- The string members that a text ends with; the text is in reverse. -/
def tails (l : List Byte) : List (String × String) :=
  match expect braceClose (l.dropWhile isJsonSpace) with
  | none => []
  | some r => entries (tailEntry decode) separator l.length r

end

/-! ### Forward -/

/-- Where a rest of the bytes starts. -/
def place (bytes l : List Byte) : Nat := bytes.length - l.length

section
variable {bytes : List Byte}

theorem place_self : place bytes bytes = 0 := Nat.sub_self _

variable {l : List Byte}

theorem getElem?_place (h : l <:+ bytes) : bytes[place bytes l]? = l.head? := by
  obtain ⟨t, rfl⟩ := h
  rw [place, List.length_append, Nat.add_sub_cancel, List.getElem?_append_right (Nat.le_refl _), Nat.sub_self,
    List.head?_eq_getElem?]

theorem index_place {c : Byte} (h : c :: l <:+ bytes) :
    (Trap.index bytes (place bytes (c :: l)) : Scan Byte) = pure c := by
  rw [Trap.index, getElem?_place h]
  rfl

theorem place_cons {c : Byte} (h : c :: l <:+ bytes) :
    place bytes (c :: l) + 1 = place bytes l := by
  have hle := h.length_le
  rw [List.length_cons] at hle
  unfold place
  rw [List.length_cons]
  omega

theorem place_lt {c : Byte} (h : c :: l <:+ bytes) : place bytes (c :: l) < bytes.length := by
  have hle := h.length_le
  rw [List.length_cons] at hle
  unfold place
  rw [List.length_cons]
  omega

theorem not_place_nil_lt : ¬place bytes [] < bytes.length := by
  unfold place
  simp

theorem suffix_of_cons {c : Byte} (h : c :: l <:+ bytes) : l <:+ bytes :=
  (List.suffix_cons c l).trans h

/-- The bytes from a rest on to a rest of it. -/
theorem slice_place {r : List Byte} (h : l <:+ bytes) (hr : r <:+ l) :
    (Trap.slice bytes (place bytes l) (place bytes r) : Scan (List Byte)) = pure (taken l r) := by
  obtain ⟨t, rfl⟩ := h
  obtain ⟨u, rfl⟩ := hr
  have hl : place (t ++ (u ++ r)) (u ++ r) = t.length := by
    rw [place, List.length_append, Nat.add_sub_cancel]
  have hr : place (t ++ (u ++ r)) r = t.length + u.length := by
    unfold place
    simp only [List.length_append]
    omega
  rw [hl, hr, Trap.slice, if_pos (by simp only [List.length_append]; omega), List.drop_left' rfl,
    Nat.add_sub_cancel_left, List.take_left' rfl, taken_append]
  rfl

theorem skipSpaceLoop_eq {fuel : Nat} (hfuel : l.length ≤ fuel) (h : l <:+ bytes) :
    skipSpaceLoop bytes fuel (place bytes l) = pure (place bytes (l.dropWhile isJsonSpace)) := by
  induction l generalizing fuel with
  | nil => cases fuel <;> rw [skipSpaceLoop, getElem?_place h] <;> rfl
  | cons c l ih =>
    obtain ⟨fuel, rfl⟩ := Nat.exists_eq_succ_of_ne_zero (Nat.ne_zero_of_lt hfuel)
    rw [skipSpaceLoop, getElem?_place h, List.dropWhile_cons, place_cons h]
    show (if isJsonSpace c then _ else _) = _
    split
    · exact ih (Nat.le_of_succ_le_succ hfuel) (suffix_of_cons h)
    · rfl

theorem skipSpace_eq (h : l <:+ bytes) :
    skipSpace bytes (place bytes l) = pure (place bytes (l.dropWhile isJsonSpace)) :=
  skipSpaceLoop_eq h.length_le h

theorem stringEndLoop_eq {fuel : Nat} (hfuel : l.length ≤ fuel) (h : l <:+ bytes) :
    stringEndLoop bytes fuel (place bytes l) = pure ((afterQuote l).map (place bytes)) := by
  have hstep : ∀ {c l fuel}, c :: l <:+ bytes → (c :: l).length ≤ fuel → ∃ fuel', fuel = fuel' + 1 ∧ l.length ≤ fuel' ∧
      stringEndLoop bytes fuel (place bytes (c :: l)) =
        if c = backslash then stringEndLoop bytes fuel' (place bytes (c :: l) + 2)
        else if c = quote then pure (some (place bytes l)) else stringEndLoop bytes fuel' (place bytes l) := by
    intro c l fuel h hfuel
    obtain ⟨fuel, rfl⟩ := Nat.exists_eq_succ_of_ne_zero (Nat.ne_zero_of_lt hfuel)
    refine ⟨fuel, rfl, Nat.le_of_succ_le_succ hfuel, ?_⟩
    rw [stringEndLoop, if_pos (place_lt h), index_place h, place_cons h]
    rfl
  fun_induction afterQuote l generalizing fuel with
  | case1 => cases fuel <;> rw [stringEndLoop, if_neg not_place_nil_lt] <;> rfl
  | case2 =>
    obtain ⟨fuel, -, -, hloop⟩ := hstep h hfuel
    rw [hloop, if_pos rfl]
    have hend : ¬place bytes [backslash] + 2 < bytes.length := by
      have hplace := place_cons h
      have hnil : ¬place bytes [] < bytes.length := not_place_nil_lt
      omega
    cases fuel <;> rw [stringEndLoop, if_neg hend] <;> rfl
  | case3 e l ih =>
    obtain ⟨fuel, -, hfuel, hloop⟩ := hstep h hfuel
    have h' := suffix_of_cons h
    have hplace : place bytes (backslash :: e :: l) + 2 = place bytes l := by
      rw [← place_cons h', ← place_cons h]
    rw [hloop, if_pos rfl, hplace]
    exact ih (Nat.le_of_succ_le hfuel) (suffix_of_cons h')
  | case4 l hne =>
    obtain ⟨fuel, -, -, hloop⟩ := hstep h hfuel
    rw [hloop, if_neg hne, if_pos rfl]
    rfl
  | case5 c l hbackslash hquote ih =>
    obtain ⟨fuel, -, hfuel, hloop⟩ := hstep h hfuel
    rw [hloop, if_neg hbackslash, if_neg hquote]
    exact ih hfuel (suffix_of_cons h)

theorem stringEnd_eq (h : l <:+ bytes) :
    stringEnd bytes (place bytes l) = pure ((forward.string l).map (place bytes)) := by
  rw [stringEnd, getElem?_place h]
  cases l with
  | nil => rfl
  | cons c l =>
    rw [place_cons h, Reading.string]
    show (if some c ≠ some quote then _ else _) = pure (Option.map _ (if c = quote then _ else _))
    split
    · rename_i hc
      rw [if_neg (by simpa using hc)]
      rfl
    · rename_i hc
      rw [if_pos (by simpa using hc)]
      have h' := suffix_of_cons h
      exact stringEndLoop_eq h'.length_le h'

theorem valueEndLoop_eq {fuel depth : Nat} (hfuel : l.length ≤ fuel) (h : l <:+ bytes) (hdepth : 1 ≤ depth) :
    valueEndLoop bytes fuel (place bytes l) depth = pure ((forward.bracketed depth l).map (place bytes)) := by
  induction hn : l.length using Nat.strong_induction_on generalizing l fuel depth with
  | _ n ih =>
    cases l with
    | nil =>
      rw [Reading.bracketed]
      cases fuel <;> rw [valueEndLoop, if_neg not_place_nil_lt] <;> rfl
    | cons c l =>
      obtain ⟨fuel, rfl⟩ := Nat.exists_eq_succ_of_ne_zero (Nat.ne_zero_of_lt hfuel)
      replace hfuel : l.length ≤ fuel := Nat.le_of_succ_le_succ hfuel
      have hlt : l.length < n := by
        rw [← hn]
        exact Nat.lt_succ_self _
      have h' := suffix_of_cons h
      have hnext : ∀ {depth}, 1 ≤ depth → valueEndLoop bytes fuel (place bytes l) depth =
          pure ((forward.bracketed depth l).map (place bytes)) := fun hdepth => ih _ hlt hfuel h' hdepth rfl
      rw [valueEndLoop, if_pos (place_lt h), index_place h, place_cons h, forward_cons]
      show (if c = quote then _ else if opens c then _ else if closes c then _ else _) = _
      split
      · rename_i hc
        subst hc
        rw [stringEnd_eq h, show forward.string (quote :: l) = afterQuote l from Reading.string_quote l]
        cases hquoted : afterQuote l with
        | none => rfl
        | some r =>
          have hrlt := takes_afterQuote.length_lt hquoted
          exact ih _ (Nat.lt_trans hrlt hlt) (Nat.le_of_lt (Nat.lt_of_lt_of_le hrlt hfuel))
            ((takes_afterQuote.suffix hquoted).trans h') hdepth rfl
      · split
        · exact hnext (Nat.le_add_left 1 depth)
        · split
          · rw [Trap.sub, if_pos hdepth]
            show (if depth - 1 = 0 then _ else _) = _
            split
            · rw [if_pos (by omega)]
              rfl
            · rw [if_neg (by omega)]
              exact hnext (by omega)
          · exact hnext hdepth

theorem place_drop (h : l <:+ bytes) {len : Nat} (hlen : len ≤ l.length) :
    place bytes (l.drop len) = place bytes l + len := by
  have hle := h.length_le
  unfold place
  rw [List.length_drop]
  omega

theorem valueEnd_eq (h : l <:+ bytes) :
    valueEnd bytes (place bytes l) = pure ((forward.value l).map (place bytes)) := by
  rw [valueEnd, getElem?_place h]
  cases l with
  | nil => rfl
  | cons c l =>
    show (if c = quote then _ else if opens c then _ else _) =
      pure (Option.map _ (if c = quote then _ else if opens c then _ else _))
    split
    · rename_i hc
      subst hc
      rw [stringEnd_eq h, show forward.string (quote :: l) = forward.literal l from Reading.string_quote l]
    · rename_i hc
      split
      · rename_i hopens
        -- the opening bracket is the first byte of the loop
        rw [show forward.bracketed 1 l = forward.bracketed 0 (c :: l) by rw [forward_cons, if_neg hc, if_pos hopens]]
        cases hfuel : bytes.length with
        | zero => exact absurd (place_lt h) (by omega)
        | succ fuel =>
          have hle := h.length_le
          rw [List.length_cons] at hle
          rw [forward_cons, if_neg hc, if_pos hopens, valueEndLoop, if_pos (place_lt h), index_place h, place_cons h]
          show (if c = quote then _ else if opens c then _ else _) = _
          rw [if_neg hc, if_pos hopens]
          exact valueEndLoop_eq (by omega) (suffix_of_cons h) (Nat.le_refl 1)
      · have hslice := slice_place h (List.nil_suffix)
        have hend : place bytes [] = bytes.length := rfl
        have htaken : taken (c :: l) [] = c :: l := List.take_length
        rw [hend, htaken] at hslice
        rw [hslice, pure_bind]
        unfold Reading.word
        cases hlen : (c :: l).findIdx? endsValue with
        | none =>
          rw [show (c :: l).findIdx? forward.stops = none from hlen]
          rfl
        | some len =>
          obtain ⟨hlt, -⟩ := List.findIdx?_eq_some_iff_getElem.mp hlen
          rw [show (c :: l).findIdx? forward.stops = some len from hlen]
          show pure (if _ then _ else _) = pure (Option.map _ (if 0 < len then _ else _))
          by_cases hpos : 0 < len
          · rw [if_pos (by omega), if_pos hpos, Option.map_some, place_drop h (Nat.le_of_lt hlt)]
          · rw [if_neg (by omega), if_neg hpos]
            rfl

end

/-! ### Backward -/

/-- The list is what stands before a position, in reverse; its length is the position. -/
def Before (bytes l : List Byte) : Prop := l.reverse <+: bytes

section
variable {bytes : List Byte}

variable {l : List Byte}

theorem Before.of_suffix {r : List Byte} (h : Before bytes l) (hr : r <:+ l) : Before bytes r :=
  (List.reverse_prefix.mpr hr).trans h

theorem Before.of_cons {c : Byte} (h : Before bytes (c :: l)) : Before bytes l :=
  h.of_suffix (List.suffix_cons c l)

theorem Before.getElem? {c : Byte} (h : Before bytes (c :: l)) : bytes[l.length]? = some c := by
  obtain ⟨t, rfl⟩ := h
  rw [List.reverse_cons, List.append_assoc, List.getElem?_append_right (by rw [List.length_reverse]),
    List.length_reverse, Nat.sub_self]
  rfl

theorem Before.index {c : Byte} (h : Before bytes (c :: l)) :
    (Trap.index bytes l.length : Scan Byte) = pure c := by
  rw [Trap.index, h.getElem?]
  rfl

/-- The bytes from a position to a later one. -/
theorem Before.slice {r : List Byte} (h : Before bytes l) (hr : r <:+ l) :
    (Trap.slice bytes r.length l.length : Scan (List Byte)) = pure (taken l r).reverse := by
  obtain ⟨t, rfl⟩ := h
  obtain ⟨u, rfl⟩ := hr
  have hlen : (u ++ r).length = u.length + r.length := List.length_append
  have hbytes : (u ++ r).reverse ++ t = r.reverse ++ (u.reverse ++ t) := by
    rw [List.reverse_append, List.append_assoc]
  rw [Trap.slice, if_pos (by simp only [List.length_append, List.length_reverse]; omega), hbytes,
    List.drop_left' List.length_reverse, hlen, Nat.add_sub_cancel, List.take_left' List.length_reverse, taken_append]
  rfl

theorem Before.slice_zero (h : Before bytes l) :
    (Trap.slice bytes 0 l.length : Scan (List Byte)) = pure l.reverse := by
  have hslice := h.slice List.nil_suffix
  rwa [show taken l [] = l from List.take_length] at hslice

theorem skipSpaceBack_eq (h : Before bytes l) :
    skipSpaceBack bytes l.length = pure (l.dropWhile isJsonSpace).length := by
  induction l with
  | nil => rfl
  | cons c l ih =>
    rw [List.length_cons, skipSpaceBack, h.index, List.dropWhile_cons]
    show (if isJsonSpace c then _ else _) = _
    split
    · exact ih h.of_cons
    · rfl

theorem stringStartLoop_eq (h : Before bytes l) :
    stringStartLoop bytes l.length = pure ((beforeQuote l).map List.length) := by
  induction l with
  | nil => rfl
  | cons c l ih =>
    rw [List.length_cons, stringStartLoop, h.index, h.of_cons.slice_zero, beforeQuote]
    show (if c ≠ quote then _ else if (l.reverse.reverse.takeWhile _).length = _ then _ else _) = _
    rw [List.reverse_reverse]
    show (if c ≠ quote then _ else if backslashes l = l.length then _ else if backslashes l % 2 = 0 then _ else _) = _
    rw [ite_not]
    split
    · split
      · rfl
      · split
        · rfl
        · exact ih h.of_cons
    · exact ih h.of_cons

theorem stringStart_eq (h : Before bytes l) :
    stringStart bytes l.length = pure ((backward.string l).map List.length) := by
  cases l with
  | nil => rfl
  | cons c l =>
    cases l with
    | nil =>
      rw [stringStart, if_pos (by simp), Reading.string]
      split <;> rfl
    | cons c' l =>
      rw [stringStart, if_neg (by simp), List.length_cons, Nat.add_sub_cancel, h.index]
      show (if c ≠ quote then _ else _) = pure (Option.map _ (if c = quote then _ else _))
      rw [ite_not]
      split
      · exact stringStartLoop_eq h.of_cons
      · rfl

theorem valueStartLoop_eq {fuel depth : Nat} (hfuel : l.length ≤ fuel) (h : Before bytes l) (hdepth : 1 ≤ depth) :
    valueStartLoop bytes fuel l.length depth = pure ((backward.bracketed depth l).map List.length) := by
  induction hn : l.length using Nat.strong_induction_on generalizing l fuel depth with
  | _ n ih =>
    subst hn
    cases l with
    | nil =>
      rw [Reading.bracketed]
      cases fuel <;> rfl
    | cons c l =>
      obtain ⟨fuel, rfl⟩ := Nat.exists_eq_succ_of_ne_zero (Nat.ne_zero_of_lt hfuel)
      replace hfuel : l.length ≤ fuel := Nat.le_of_succ_le_succ hfuel
      have hlt : l.length < (c :: l).length := Nat.lt_succ_self _
      have hnext : ∀ {depth}, 1 ≤ depth → valueStartLoop bytes fuel l.length depth =
          pure ((backward.bracketed depth l).map List.length) := fun hdepth => ih _ hlt hfuel h.of_cons hdepth rfl
      rw [valueStartLoop, if_pos (Nat.zero_lt_of_lt hlt), backward_cons]
      show (Trap.index bytes l.length >>= _) = _
      rw [h.index]
      show (if c = quote then (stringStart bytes (c :: l).length >>= _) else if closes c then _
        else if opens c then _ else _) = _
      split
      · rename_i hc
        subst hc
        rw [stringStart_eq h, show backward.string (quote :: l) = beforeQuote l from Reading.string_quote l]
        cases hquoted : beforeQuote l with
        | none => rfl
        | some r =>
          have hrlt := takes_beforeQuote.length_lt hquoted
          exact ih _ (Nat.lt_trans hrlt hlt) (Nat.le_of_lt (Nat.lt_of_lt_of_le hrlt hfuel))
            (h.of_cons.of_suffix (takes_beforeQuote.suffix hquoted)) hdepth rfl
      · split
        · exact hnext (Nat.le_add_left 1 depth)
        · split
          · rw [Trap.sub, if_pos hdepth]
            show (if depth - 1 = 0 then _ else _) = _
            split
            · rw [if_pos (by omega)]
              rfl
            · rw [if_neg (by omega)]
              exact hnext (by omega)
          · exact hnext hdepth

theorem valueStart_eq (h : Before bytes l) :
    valueStart bytes l.length = pure ((backward.value l).map List.length) := by
  cases l with
  | nil => rfl
  | cons c l =>
    rw [valueStart, List.length_cons, if_neg (Nat.succ_ne_zero _), Nat.add_sub_cancel, h.getElem?]
    show (if c = quote then _ else if closes c then _ else _) =
      pure (Option.map _ (if c = quote then _ else if closes c then _ else _))
    split
    · rename_i hc
      subst hc
      have hstart := stringStart_eq h
      rwa [show backward.string (quote :: l) = backward.literal l from Reading.string_quote l] at hstart
    · rename_i hc
      split
      · rename_i hcloses
        -- the closing bracket is the first byte of the loop
        rw [valueStartLoop, if_pos (Nat.zero_lt_succ _)]
        show (Trap.index bytes l.length >>= _) = _
        rw [h.index]
        show (if c = quote then _ else if closes c then _ else _) = _
        rw [if_neg hc, if_pos hcloses]
        exact valueStartLoop_eq (Nat.le_refl _) h.of_cons (Nat.le_refl 1)
      · have hslice := h.slice_zero
        rw [List.length_cons] at hslice
        rw [hslice, pure_bind, List.reverse_reverse]
        unfold Reading.word
        cases hafter : (c :: l).findIdx? startsValue with
        | none =>
          rw [show (c :: l).findIdx? backward.stops = none from hafter]
          rfl
        | some after =>
          obtain ⟨hlt, -⟩ := List.findIdx?_eq_some_iff_getElem.mp hafter
          rw [List.length_cons] at hlt
          rw [show (c :: l).findIdx? backward.stops = some after from hafter]
          show pure (if _ then _ else _) = pure (Option.map _ (if 0 < after then _ else _))
          by_cases hpos : 0 < after
          · rw [if_pos (by omega), if_pos hpos, Option.map_some, List.length_drop, List.length_cons]
          · rw [if_neg (by omega), if_neg hpos]
            rfl

theorem byteBefore_eq (h : Before bytes l) : byteBefore bytes l.length = pure l.head? := by
  cases l with
  | nil => rfl
  | cons c l =>
    rw [byteBefore, List.length_cons, if_neg (Nat.succ_ne_zero _), Nat.add_sub_cancel, h.index]
    rfl

end

/-! ### Members -/

section
variable (decode : List Byte → Option String)

theorem headEntry_eq (l : List Byte) :
    headEntry decode l =
      (forward.string (l.dropWhile isJsonSpace)).bind fun r =>
        (decode (taken (l.dropWhile isJsonSpace) r)).bind fun name =>
          (expect colon (r.dropWhile isJsonSpace)).bind fun m =>
            (forward.value (m.dropWhile isJsonSpace)).bind fun r' =>
              some ((stringOf decode (taken (m.dropWhile isJsonSpace) r')).map (name, ·), r') := by
  unfold headEntry couple reading
  simp only [Option.map_eq_bind, Option.bind_assoc, Option.bind_some, Function.comp_def]

theorem tailEntry_eq (l : List Byte) :
    tailEntry decode l =
      (backward.value (l.dropWhile isJsonSpace)).bind fun r =>
        (expect colon (r.dropWhile isJsonSpace)).bind fun m =>
          (backward.string (m.dropWhile isJsonSpace)).bind fun r' =>
            (decode (taken (m.dropWhile isJsonSpace) r').reverse).bind fun name =>
              some ((stringOf decode (taken (l.dropWhile isJsonSpace) r).reverse).map (name, ·), r') := by
  unfold tailEntry couple reading
  simp only [Option.map_eq_bind, Option.bind_assoc, Option.bind_some, Function.comp_def]

theorem takes_separator : Takes separator := Takes.skip (takes_expect comma) isJsonSpace

variable {bytes : List Byte}

theorem index_append {c : Byte} {u r : List Byte} (h : c :: u ++ r <:+ bytes) :
    (Trap.index bytes (place bytes (c :: u ++ r)) : Scan Byte) = pure c := index_place h

theorem stringValue_place {c : Byte} {u r : List Byte} (h : c :: u ++ r <:+ bytes) :
    stringValue bytes decode c (place bytes (c :: u ++ r)) (place bytes r) = pure (stringOf decode (c :: u)) := by
  rw [stringValue, slice_place h (List.suffix_append _ r), taken_append, stringOf, List.head?_cons]
  by_cases hc : c = quote
  · rw [if_pos hc, if_pos (congrArg some hc)]
    rfl
  · rw [if_neg hc, if_neg (fun h => hc (Option.some.inj h))]

theorem toList_map_key (name : String) (value : Option String) :
    value.toList.map (name, ·) = (value.map (name, ·)).toList := by
  cases value <;> rfl

theorem headLoop_eq {fuel : Nat} {l : List Byte} (hfuel : l.length < fuel) (h : l <:+ bytes) :
    headLoop bytes decode fuel (place bytes l) = pure (entries (headEntry decode) separator fuel l) := by
  induction fuel generalizing l with
  | zero => cases hfuel
  | succ fuel ih =>
    have hskip : ∀ {l}, l <:+ bytes → l.dropWhile isJsonSpace <:+ bytes := fun h =>
      (List.dropWhile_suffix isJsonSpace).trans h
    rw [headLoop, entries, headEntry_eq, skipSpace_eq h]
    show (stringEnd bytes _ >>= _) = _
    rw [stringEnd_eq (hskip h)]
    cases hkey : forward.string (l.dropWhile isJsonSpace) with
    | none => rfl
    | some r =>
      have hr := Takes.suffix Reading.takes_string hkey
      have hrlt := Takes.length_lt Reading.takes_string hkey
      show (Trap.slice bytes _ (place bytes r) >>= _) = _
      rw [slice_place (hskip h) hr, Option.bind_some, pure_bind]
      cases decode (taken (l.dropWhile isJsonSpace) r) with
      | none => rfl
      | some name =>
        replace hr := hr.trans (hskip h)
        show (skipSpace bytes (place bytes r) >>= _) = _
        rw [skipSpace_eq hr]
        show (if bytes[place bytes (r.dropWhile isJsonSpace)]? ≠ some colon then _ else _) = _
        rw [getElem?_place (hskip hr), Option.bind_some]
        cases hcolon : expect colon (r.dropWhile isJsonSpace) with
        | none =>
          rw [if_pos (expect_eq_none.mp hcolon)]
          rfl
        | some m =>
          have hm := hskip hr
          rw [expect_eq_some.mp hcolon] at hm
          have hmlt := Takes.length_lt (takes_expect colon) hcolon
          rw [expect_eq_some.mp hcolon, List.head?_cons, if_neg (fun hne => hne rfl), place_cons hm,
            skipSpace_eq (suffix_of_cons hm)]
          replace hm := suffix_of_cons hm
          show (valueEnd bytes _ >>= _) = _
          rw [valueEnd_eq (hskip hm), Option.bind_some]
          cases hvalue : forward.value (m.dropWhile isJsonSpace) with
          | none => rfl
          | some r' =>
            have hr' := (Takes.suffix Reading.takes_value hvalue).trans (hskip hm)
            have hlt := Takes.length_lt Reading.takes_value hvalue
            obtain ⟨t, hne, ht⟩ := Reading.takes_value hvalue
            obtain ⟨c, u, rfl⟩ := List.exists_cons_of_ne_nil hne
            have hv := hskip hm
            rw [ht] at hv ⊢
            show (Trap.index bytes _ >>= _) = _
            rw [index_append hv]
            show (stringValue bytes decode c _ _ >>= _) = _
            rw [stringValue_place decode hv, Option.bind_some, taken_append]
            show (skipSpace bytes (place bytes r') >>= _) = _
            rw [skipSpace_eq hr']
            show (if bytes[place bytes (r'.dropWhile isJsonSpace)]? ≠ some comma then _ else _) = _
            rw [getElem?_place (hskip hr')]
            dsimp only
            cases hcomma : separator r' with
            | none =>
              rw [if_pos (expect_eq_none.mp hcomma), List.append_nil, toList_map_key]
            | some next =>
              have hn := hskip hr'
              rw [expect_eq_some.mp hcomma] at hn
              have hnlt := Takes.length_lt takes_separator hcomma
              rw [expect_eq_some.mp hcomma, List.head?_cons, if_neg (fun hne => hne rfl), place_cons hn,
                toList_map_key, ih]
              · rfl
              · -- each round reads a key, a colon, a value and a comma
                have hl := length_dropWhile_le isJsonSpace l
                have hrl := length_dropWhile_le isJsonSpace r
                have hml := length_dropWhile_le isJsonSpace m
                omega
              · exact suffix_of_cons hn

theorem Before.skip {l : List Byte} (h : Before bytes l) : Before bytes (l.dropWhile isJsonSpace) :=
  h.of_suffix (List.dropWhile_suffix isJsonSpace)

theorem stringValue_before {c : Byte} {u r : List Byte} (h : Before bytes (u ++ c :: r)) :
    stringValue bytes decode c r.length (u ++ c :: r).length =
      pure (stringOf decode (taken (u ++ c :: r) r).reverse) := by
  have hslice := h.slice ((List.suffix_cons c r).trans (List.suffix_append u _))
  have htaken : taken (u ++ c :: r) r = u ++ [c] := by
    rw [← taken_append (u ++ [c]) r, List.append_assoc]
    rfl
  rw [stringValue, hslice, htaken, stringOf, List.reverse_append, List.reverse_singleton, List.singleton_append,
    List.head?_cons]
  by_cases hc : c = quote
  · rw [if_pos hc, if_pos (congrArg some hc)]
    rfl
  · rw [if_neg hc, if_neg (fun h => hc (Option.some.inj h))]

theorem tailLoop_eq {fuel : Nat} {l : List Byte} (hfuel : l.length < fuel) (h : Before bytes l) :
    tailLoop bytes decode fuel l.length = pure (entries (tailEntry decode) separator fuel l) := by
  induction fuel generalizing l with
  | zero => cases hfuel
  | succ fuel ih =>
    rw [tailLoop, entries, tailEntry_eq, skipSpaceBack_eq h]
    show (valueStart bytes _ >>= _) = _
    rw [valueStart_eq h.skip]
    cases hvalue : backward.value (l.dropWhile isJsonSpace) with
    | none => rfl
    | some r =>
      have hr := h.skip.of_suffix (Takes.suffix Reading.takes_value hvalue)
      have hrlt := Takes.length_lt Reading.takes_value hvalue
      have hv := h.skip
      obtain ⟨t, hne, ht⟩ := Reading.takes_value hvalue
      obtain ⟨u, c, rfl⟩ := List.eq_nil_or_concat t |>.resolve_left hne
      rw [List.concat_eq_append, List.append_assoc, List.singleton_append] at ht
      rw [ht] at hv ⊢
      show (Trap.index bytes r.length >>= _) = _
      rw [(hv.of_suffix (List.suffix_append u _)).index]
      show (stringValue bytes decode c _ _ >>= _) = _
      rw [stringValue_before decode hv, Option.bind_some]
      show (skipSpaceBack bytes r.length >>= _) = _
      rw [skipSpaceBack_eq hr]
      show (byteBefore bytes _ >>= _) = _
      rw [byteBefore_eq hr.skip]
      show (if (r.dropWhile isJsonSpace).head? ≠ some colon then _ else _) = _
      cases hcolon : expect colon (r.dropWhile isJsonSpace) with
      | none =>
        rw [if_pos (expect_eq_none.mp hcolon)]
        rfl
      | some m =>
        have hm := hr.skip
        rw [expect_eq_some.mp hcolon] at hm
        have hmlt := Takes.length_lt (takes_expect colon) hcolon
        rw [expect_eq_some.mp hcolon, List.head?_cons, if_neg (fun hne => hne rfl), List.length_cons,
          Nat.add_sub_cancel, skipSpaceBack_eq hm.of_cons]
        replace hm := hm.of_cons
        show (stringStart bytes _ >>= _) = _
        rw [stringStart_eq hm.skip, Option.bind_some]
        cases hkey : backward.string (m.dropWhile isJsonSpace) with
        | none => rfl
        | some r' =>
          have hr' := hm.skip.of_suffix (Takes.suffix Reading.takes_string hkey)
          have hlt := Takes.length_lt Reading.takes_string hkey
          show (Trap.slice bytes r'.length _ >>= _) = _
          rw [hm.skip.slice (Takes.suffix Reading.takes_string hkey), Option.bind_some, pure_bind]
          cases decode (taken (m.dropWhile isJsonSpace) r').reverse with
          | none => rfl
          | some name =>
            show (skipSpaceBack bytes r'.length >>= _) = _
            rw [skipSpaceBack_eq hr']
            show (byteBefore bytes _ >>= _) = _
            rw [byteBefore_eq hr'.skip]
            show (if (r'.dropWhile isJsonSpace).head? ≠ some comma then _ else _) = _
            dsimp only [Option.bind_some]
            cases hcomma : separator r' with
            | none =>
              rw [if_pos (expect_eq_none.mp hcomma), List.append_nil, toList_map_key]
            | some next =>
              have hn := hr'.skip
              rw [expect_eq_some.mp hcomma] at hn
              have hnlt := Takes.length_lt takes_separator hcomma
              rw [expect_eq_some.mp hcomma, List.head?_cons, if_neg (fun hne => hne rfl), List.length_cons,
                Nat.add_sub_cancel, toList_map_key, ih]
              · rfl
              · -- each round reads a value, a colon, a key and a comma
                have hl := length_dropWhile_le isJsonSpace l
                have hrl := length_dropWhile_le isJsonSpace r
                have hml := length_dropWhile_le isJsonSpace m
                omega
              · exact hn.of_cons

theorem headMembers_eq (bytes : List Byte) : headMembers bytes decode = pure (heads decode bytes) := by
  have hself : bytes <:+ bytes := List.suffix_refl bytes
  have hspace := (List.dropWhile_suffix isJsonSpace).trans hself
  have hskip := skipSpace_eq hself
  rw [place_self] at hskip
  rw [headMembers, hskip, heads]
  show (if bytes[place bytes (bytes.dropWhile isJsonSpace)]? ≠ some braceOpen then _ else _) = _
  rw [getElem?_place hspace]
  cases hbrace : expect braceOpen (bytes.dropWhile isJsonSpace) with
  | none => rw [if_pos (expect_eq_none.mp hbrace)]
  | some l =>
    have hlt := Takes.length_lt (Takes.skip (takes_expect braceOpen) isJsonSpace) hbrace
    rw [expect_eq_some.mp hbrace] at hspace
    rw [expect_eq_some.mp hbrace, List.head?_cons, if_neg (fun hne => hne rfl), place_cons hspace]
    exact headLoop_eq decode hlt (suffix_of_cons hspace)

theorem tailMembers_eq (bytes : List Byte) : tailMembers bytes decode = pure (tails decode bytes.reverse) := by
  have hself : Before bytes bytes.reverse := by
    rw [Before, List.reverse_reverse]
  have hskip := skipSpaceBack_eq hself
  rw [List.length_reverse] at hskip
  rw [tailMembers, hskip, tails]
  show (byteBefore bytes _ >>= _) = _
  rw [byteBefore_eq hself.skip]
  show (if (bytes.reverse.dropWhile isJsonSpace).head? ≠ some braceClose then _ else _) = _
  cases hbrace : expect braceClose (bytes.reverse.dropWhile isJsonSpace) with
  | none => rw [if_pos (expect_eq_none.mp hbrace)]
  | some l =>
    have hlt := Takes.length_lt (Takes.skip (takes_expect braceClose) isJsonSpace) hbrace
    have hspace := hself.skip
    have hlen : bytes.length = bytes.reverse.length := List.length_reverse.symm
    rw [expect_eq_some.mp hbrace] at hspace
    rw [expect_eq_some.mp hbrace, List.head?_cons, if_neg (fun hne => hne rfl), List.length_cons, Nat.add_sub_cancel,
      hlen]
    exact tailLoop_eq decode hlt hspace.of_cons

end

end Iii.Worker
