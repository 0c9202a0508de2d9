import Iii.Lib.Brackets
import Iii.Worker.Envelope

/-! Reading JSON from either end.

`forward` and `backward` read the bytes of a text from its front and from its back, the bytes of the
backward one in reverse. Strings, brackets and words that are written as JSON writes them are read
whole both ways; backward a literal is only sure to start at a quote with a byte before it that is
not a backslash (`Clean`). -/
namespace Iii.Worker
open Lib

/-- From after a string's quote on, to after the one that closes it. -/
def afterQuote : Scanner Byte
  | [] => none
  | c :: l =>
    if c = backslash then
      match l with
      | [] => none
      | _ :: l => afterQuote l
    else if c = quote then some l
    else afterQuote l

def backslashes (l : List Byte) : Nat := (l.takeWhile (· = backslash)).length

/-- Backward from before a string's quote, to before the one that opens it. -/
def beforeQuote : Scanner Byte
  | [] => none
  | c :: l =>
    if c = quote then
      if backslashes l = l.length then none else if backslashes l % 2 = 0 then some l else beforeQuote l
    else beforeQuote l

variable {c : Byte} {b r : List Byte}

theorem afterQuote_cons (hc : c ≠ backslash) (l : List Byte) :
    afterQuote (c :: l) = if c = quote then some l else afterQuote l := by
  cases l <;> exact if_neg hc

theorem afterQuote_escape (c : Byte) (l : List Byte) : afterQuote (backslash :: c :: l) = afterQuote l := rfl

theorem takes_afterQuote : Takes afterQuote := by
  intro l r h
  fun_induction afterQuote l with
  | case1 => cases h
  | case2 => cases h
  | case3 e l ih =>
    obtain ⟨t, -, rfl⟩ := ih h
    exact ⟨backslash :: e :: t, List.cons_ne_nil _ _, rfl⟩
  | case4 l =>
    cases h
    exact ⟨[quote], List.cons_ne_nil _ _, rfl⟩
  | case5 c l _ _ ih =>
    obtain ⟨t, -, rfl⟩ := ih h
    exact ⟨c :: t, List.cons_ne_nil _ _, rfl⟩

theorem local_afterQuote : Local afterQuote := by
  intro l r h x
  fun_induction afterQuote l with
  | case1 => cases h
  | case2 => cases h
  | case3 e l ih =>
    rw [List.cons_append, List.cons_append, afterQuote_escape]
    exact ih h
  | case4 l hne =>
    cases h
    rw [List.cons_append, afterQuote_cons hne, if_pos rfl]
  | case5 c l hbackslash hquote ih =>
    rw [List.cons_append, afterQuote_cons hbackslash, if_neg hquote]
    exact ih h

theorem takes_beforeQuote : Takes beforeQuote := by
  intro l r h
  fun_induction beforeQuote l with
  | case1 => cases h
  | case2 => cases h
  | case3 l =>
    cases h
    exact ⟨[quote], List.cons_ne_nil _ _, rfl⟩
  | case4 l _ _ ih =>
    obtain ⟨t, -, rfl⟩ := ih h
    exact ⟨quote :: t, List.cons_ne_nil _ _, rfl⟩
  | case5 c l _ ih =>
    obtain ⟨t, -, rfl⟩ := ih h
    exact ⟨c :: t, List.cons_ne_nil _ _, rfl⟩

/-- A run of backslashes that ends in sight is as long in the whole text. -/
theorem backslashes_append {l : List Byte} (h : backslashes l ≠ l.length) (x : List Byte) :
    backslashes (l ++ x) = backslashes l := by
  unfold backslashes at *
  rw [List.takeWhile_append, if_neg h]

theorem backslashes_le (l : List Byte) : backslashes l ≤ l.length := (List.takeWhile_sublist _).length_le

theorem local_beforeQuote : Local beforeQuote := by
  intro l r h x
  fun_induction beforeQuote l with
  | case1 => cases h
  | case2 => cases h
  | case3 l hends heven =>
    have hle := backslashes_le l
    cases h
    rw [List.cons_append, beforeQuote, if_pos rfl, backslashes_append hends, if_neg, if_pos heven]
    rw [List.length_append]
    omega
  | case4 l hends hodd ih =>
    have hle := backslashes_le l
    rw [List.cons_append, beforeQuote, if_pos rfl, backslashes_append hends, if_neg, if_neg hodd]
    · exact ih h
    · rw [List.length_append]
      omega
  | case5 c l hquote ih =>
    rw [List.cons_append, beforeQuote, if_neg hquote]
    exact ih h

def forward : Reading Byte where
  quote := quote
  up := opens
  down := closes
  stops := endsValue
  literal := afterQuote
  takes := takes_afterQuote
  isLocal := local_afterQuote

def backward : Reading Byte where
  quote := quote
  up := closes
  down := opens
  stops := startsValue
  literal := beforeQuote
  takes := takes_beforeQuote
  isLocal := local_beforeQuote

/-! ### What JSON writes -/

/-- What stands between the quotes of a string. -/
inductive Quoted : List Byte → Prop
  | nil : Quoted []
  | plain {b : List Byte} (c : Byte) (hquote : c ≠ quote) (hbackslash : c ≠ backslash) (h : Quoted b) : Quoted (c :: b)
  | escape {b : List Byte} (c : Byte) (h : Quoted b) : Quoted (backslash :: c :: b)

/-- What stands in brackets. -/
inductive Inside : List Byte → Prop
  | nil : Inside []
  | byte (c : Byte) (hquote : c ≠ quote) (hbackslash : c ≠ backslash) (hopens : opens c = false)
      (hcloses : closes c = false) : Inside [c]
  | string {b : List Byte} (h : Quoted b) : Inside (quote :: (b ++ [quote]))
  | brackets {o c : Byte} {s : List Byte} (ho : opens o = true) (hc : closes c = true) (h : Inside s) :
      Inside (o :: (s ++ [c]))
  | append {a b : List Byte} (ha : Inside a) (hb : Inside b) : Inside (a ++ b)

/-- A value with no space around it. -/
inductive Whole : List Byte → Prop
  | string {b : List Byte} (h : Quoted b) : Whole (quote :: (b ++ [quote]))
  | brackets {o c : Byte} {s : List Byte} (ho : opens o = true) (hc : closes c = true) (h : Inside s) :
      Whole (o :: (s ++ [c]))
  | word {w : List Byte} (hne : w ≠ []) (hw : ∀ c ∈ w, c ≠ quote ∧ endsValue c = false ∧ startsValue c = false) :
      Whole w

theorem afterQuote_quoted (h : Quoted b) (r : List Byte) : afterQuote (b ++ quote :: r) = some r := by
  induction h with
  | nil => rw [List.nil_append, afterQuote_cons (by decide), if_pos rfl]
  | plain c hquote hbackslash _ ih =>
    rw [List.cons_append, afterQuote_cons hbackslash, if_neg hquote]
    exact ih
  | escape c _ ih =>
    rw [List.cons_append, List.cons_append, afterQuote_escape]
    exact ih

/-- Bytes before a place where no escape is open. -/
def Even (l : List Byte) : Prop := backslashes l % 2 = 0 ∧ backslashes l ≠ l.length

theorem backslashes_cons (c : Byte) (l : List Byte) :
    backslashes (c :: l) = if c = backslash then backslashes l + 1 else 0 := by
  unfold backslashes
  rw [List.takeWhile_cons]
  split <;> simp_all

theorem even_cons (hc : c ≠ backslash) (l : List Byte) : Even (c :: l) := by
  unfold Even
  rw [backslashes_cons, if_neg hc]
  simp

/-- Backward over what stands between quotes: a quote in it has an odd number of backslashes before it. -/
theorem beforeQuote_skip {l : List Byte} (h : Quoted b) (hl : Even l) :
    beforeQuote (b.reverse ++ l) = beforeQuote l := by
  induction h generalizing l with
  | nil => rfl
  | plain c hquote hbackslash _ ih =>
    rw [List.reverse_cons, List.append_assoc, List.singleton_append, ih (even_cons hbackslash l), beforeQuote,
      if_neg hquote]
  | escape c _ ih =>
    have hpass : beforeQuote (backslash :: l) = beforeQuote l := by
      rw [beforeQuote, if_neg (by decide)]
    have hrun : backslashes (backslash :: l) = backslashes l + 1 := by
      rw [backslashes_cons, if_pos rfl]
    obtain ⟨heven, hends⟩ := hl
    have hnext : Even (c :: backslash :: l) := by
      by_cases hc : c = backslash
      · unfold Even
        rw [backslashes_cons, if_pos hc, hrun]
        simp only [List.length_cons]
        omega
      · exact even_cons hc _
    rw [List.reverse_cons, List.reverse_cons, List.append_assoc, List.append_assoc, List.singleton_append,
      List.singleton_append, ih hnext, beforeQuote]
    split
    · rw [if_neg, if_neg, hpass]
      · omega
      · rw [hrun, List.length_cons]
        omega
    · exact hpass

/-- There is a byte before, and it is not a backslash. -/
def Clean (l : List Byte) : Prop := ∃ c r, l = c :: r ∧ c ≠ backslash

theorem beforeQuote_quoted (h : Quoted b) (hr : Clean r) :
    beforeQuote (b.reverse ++ quote :: r) = some r := by
  obtain ⟨c, r, rfl, hc⟩ := hr
  have hrun : backslashes (c :: r) = 0 := by
    rw [backslashes_cons, if_neg hc]
  rw [beforeQuote_skip h (even_cons (by decide) _), beforeQuote, if_pos rfl, hrun]
  simp

theorem of_opens (h : opens c = true) : c ≠ quote ∧ c ≠ backslash ∧ closes c = false := by
  simp only [opens, Bool.or_eq_true, decide_eq_true_eq] at h
  rcases h with rfl | rfl <;> decide

theorem of_closes (h : closes c = true) : c ≠ quote ∧ c ≠ backslash ∧ opens c = false := by
  simp only [closes, Bool.or_eq_true, decide_eq_true_eq] at h
  rcases h with rfl | rfl <;> decide

theorem forward_cons (depth : Nat) (c : Byte) (l : List Byte) :
    forward.bracketed depth (c :: l) =
      if c = quote then (afterQuote l).bind (forward.bracketed depth)
      else if opens c then forward.bracketed (depth + 1) l
      else if closes c then if depth ≤ 1 then some l else forward.bracketed (depth - 1) l
      else forward.bracketed depth l :=
  Reading.bracketed_cons depth c l

theorem backward_cons (depth : Nat) (c : Byte) (l : List Byte) :
    backward.bracketed depth (c :: l) =
      if c = quote then (beforeQuote l).bind (backward.bracketed depth)
      else if closes c then backward.bracketed (depth + 1) l
      else if opens c then if depth ≤ 1 then some l else backward.bracketed (depth - 1) l
      else backward.bracketed depth l :=
  Reading.bracketed_cons depth c l

/-- Brackets that close in between change nothing. -/
theorem forward_inside {s : List Byte} (h : Inside s) {depth : Nat} (hdepth : 1 ≤ depth) :
    forward.bracketed depth (s ++ r) = forward.bracketed depth r := by
  induction h generalizing depth r with
  | nil => rfl
  | byte c hquote _ hopens hcloses =>
    rw [List.singleton_append, forward_cons, if_neg hquote, hopens, hcloses]
    rfl
  | string h =>
    rw [List.cons_append, List.append_assoc, List.singleton_append, forward_cons, if_pos rfl, afterQuote_quoted h]
    rfl
  | brackets ho hc _ ih =>
    obtain ⟨hquote, -, -⟩ := of_opens ho
    obtain ⟨hquote', -, hopens⟩ := of_closes hc
    rw [List.cons_append, List.append_assoc, List.singleton_append, forward_cons, if_neg hquote, if_pos ho,
      ih (Nat.le_add_left 1 depth), forward_cons, if_neg hquote', hopens]
    simp only [Bool.false_eq_true, if_false]
    rw [if_pos hc, if_neg (by omega), Nat.add_sub_cancel]
  | append _ _ iha ihb => rw [List.append_assoc, iha hdepth, ihb hdepth]

theorem clean_inside {s : List Byte} (h : Inside s) (hr : Clean r) : Clean (s.reverse ++ r) := by
  induction h generalizing r with
  | nil => exact hr
  | byte c _ hbackslash => exact ⟨c, r, rfl, hbackslash⟩
  | string => exact ⟨quote, _, by rw [List.reverse_cons, List.reverse_append]; rfl, by decide⟩
  | @brackets o c s _ hc => exact ⟨c, _, by rw [List.reverse_cons, List.reverse_append]; rfl, (of_closes hc).2.1⟩
  | append _ _ iha ihb =>
    rw [List.reverse_append, List.append_assoc]
    exact ihb (iha hr)

theorem backward_inside {s : List Byte} (h : Inside s) (hr : Clean r) {depth : Nat} (hdepth : 1 ≤ depth) :
    backward.bracketed depth (s.reverse ++ r) = backward.bracketed depth r := by
  induction h generalizing depth r with
  | nil => rfl
  | byte c hquote _ hopens hcloses =>
    rw [List.reverse_singleton, List.singleton_append, backward_cons, if_neg hquote, hopens, hcloses]
    rfl
  | string h =>
    rw [List.reverse_cons, List.reverse_append, List.reverse_singleton, List.append_assoc, List.append_assoc,
      List.singleton_append, List.singleton_append, backward_cons, if_pos rfl, beforeQuote_quoted h hr]
    rfl
  | @brackets o c s ho hc _ ih =>
    obtain ⟨hquote, hbackslash, hcloses⟩ := of_opens ho
    obtain ⟨hquote', -, -⟩ := of_closes hc
    rw [List.reverse_cons, List.reverse_append, List.reverse_singleton, List.append_assoc, List.append_assoc,
      List.singleton_append, List.singleton_append, backward_cons, if_neg hquote', if_pos hc,
      ih ⟨o, r, rfl, hbackslash⟩ (Nat.le_add_left 1 depth), backward_cons, if_neg hquote, hcloses]
    simp only [Bool.false_eq_true, if_false]
    rw [if_pos ho, if_neg (by omega), Nat.add_sub_cancel]
  | append ha _ iha ihb =>
    rw [List.reverse_append, List.append_assoc, ihb (clean_inside ha hr) hdepth, iha hr hdepth]

/-! ### Values -/

theorem forward_string (h : Quoted b) (r : List Byte) :
    forward.string (quote :: (b ++ [quote]) ++ r) = some r := by
  rw [List.cons_append, List.append_assoc, List.singleton_append, Reading.string,
    if_pos (show quote = forward.quote from rfl)]
  exact afterQuote_quoted h r

theorem backward_string (h : Quoted b) (hr : Clean r) :
    backward.string ((quote :: (b ++ [quote])).reverse ++ r) = some r := by
  rw [List.reverse_cons, List.reverse_append, List.reverse_singleton, List.append_assoc, List.append_assoc,
    List.singleton_append, List.singleton_append, Reading.string, if_pos (show quote = backward.quote from rfl)]
  exact beforeQuote_quoted h hr

theorem value_of_quote (D : Reading Byte) {l : List Byte} (h : l.head? = some D.quote) : D.value l = D.string l := by
  cases l with
  | nil => rfl
  | cons c l =>
    cases h
    rw [Reading.value, Reading.string, if_pos rfl, if_pos rfl]

theorem forward_value {v : List Byte} (h : Whole v) (hc : endsValue c = true) (r : List Byte) :
    forward.value (v ++ c :: r) = some (c :: r) := by
  cases h with
  | string h =>
    rw [value_of_quote forward rfl]
    exact forward_string h _
  | @brackets o c' s ho hc' h =>
    obtain ⟨hquote, -, -⟩ := of_opens ho
    obtain ⟨hquote', -, hopens⟩ := of_closes hc'
    rw [List.cons_append, Reading.value]
    show (if o = quote then _ else if opens o then forward.bracketed 1 _ else _) = _
    rw [if_neg hquote, if_pos ho, List.append_assoc, List.singleton_append, forward_inside h (Nat.le_refl 1),
      forward_cons, if_neg hquote', hopens, if_pos hc', if_pos (Nat.le_refl 1)]
    rfl
  | word hne hw =>
    cases v with
    | nil => exact absurd rfl hne
    | cons a w =>
      obtain ⟨hquote, hends, hstarts⟩ := hw a (List.mem_cons_self ..)
      have hopens : opens a = false := by
        simp only [startsValue, Bool.or_eq_false_iff] at hstarts
        exact hstarts.1.2
      rw [List.cons_append, Reading.value]
      show (if a = quote then _ else if opens a then _ else forward.word (a :: w ++ c :: r)) = _
      rw [if_neg hquote, hopens]
      exact Reading.word_append (D := forward) (fun b hb => (hw b hb).2.1) (List.cons_ne_nil a w) hc r

theorem clean_of_startsValue (hc : startsValue c = true) (r : List Byte) : Clean (c :: r) := by
  refine ⟨c, r, rfl, ?_⟩
  rintro rfl
  exact absurd hc (by decide)

theorem backward_value {v : List Byte} (h : Whole v) (hc : startsValue c = true) (r : List Byte) :
    backward.value (v.reverse ++ c :: r) = some (c :: r) := by
  have hclean := clean_of_startsValue hc r
  cases h with
  | string h =>
    rw [value_of_quote backward (by simp [backward])]
    exact backward_string h hclean
  | @brackets o c' s ho hc' h =>
    obtain ⟨hquote, hbackslash, hcloses⟩ := of_opens ho
    obtain ⟨hquote', -, -⟩ := of_closes hc'
    rw [List.reverse_cons, List.reverse_append, List.reverse_singleton, List.append_assoc, List.append_assoc,
      List.singleton_append, List.singleton_append, Reading.value]
    show (if c' = quote then _ else if closes c' then backward.bracketed 1 _ else _) = _
    rw [if_neg hquote', if_pos hc', backward_inside h ⟨o, _, rfl, hbackslash⟩ (Nat.le_refl 1), backward_cons,
      if_neg hquote, hcloses, if_pos ho, if_pos (Nat.le_refl 1)]
    rfl
  | word hne hw =>
    have hrev : ∀ b ∈ v.reverse, b ≠ quote ∧ endsValue b = false ∧ startsValue b = false := fun b hb =>
      hw b (List.mem_reverse.mp hb)
    have hne : v.reverse ≠ [] := by simpa using hne
    cases hv : v.reverse with
    | nil => exact absurd hv hne
    | cons a w =>
      rw [hv] at hrev
      obtain ⟨hquote, hends, hstarts⟩ := hrev a (List.mem_cons_self ..)
      have hcloses : closes a = false := by
        simp only [endsValue, Bool.or_eq_false_iff] at hends
        exact hends.1.2
      rw [List.cons_append, Reading.value]
      show (if a = quote then _ else if closes a then _ else backward.word (a :: w ++ c :: r)) = _
      rw [if_neg hquote, hcloses]
      exact Reading.word_append (D := backward) (fun b hb => (hrev b hb).2.2) (List.cons_ne_nil a w) hc r

end Iii.Worker
