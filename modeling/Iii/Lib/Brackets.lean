import Mathlib.Data.List.TakeWhile
import Mathlib.Data.List.Basic

/-! Reading bracketed text from one side.

The letters of a text may be read from its front or from its back; a `Reading` says what opens and
closes on the way, where a bare word stops, and how a quoted literal is passed. A scanner takes what
it reads off the front of a list and gives the rest. It is `Local` when letters that follow do not
change what it does with those at hand: what it finds in a part of a text it finds in the text. -/
namespace Iii.Lib
variable {α β γ : Type}

abbrev Scanner (α : Type) := List α → Option (List α)

/-- What stands after the scanner's reading does not matter to it. -/
def Local (f : Scanner α) : Prop := ∀ {l r : List α}, f l = some r → ∀ x, f (l ++ x) = some (r ++ x)

/-- A scanner takes letters off the front, one at least. -/
def Takes (f : Scanner α) : Prop := ∀ {l r : List α}, f l = some r → ∃ t, t ≠ [] ∧ l = t ++ r

/-- What a scanner has read. -/
def taken (l r : List α) : List α := l.take (l.length - r.length)

theorem taken_append (t r : List α) : taken (t ++ r) r = t := by
  unfold taken
  rw [List.length_append, Nat.add_sub_cancel, List.take_left']
  rfl

variable {l r : List α} {f : Scanner α}

theorem Takes.length_lt (hf : Takes f) (h : f l = some r) : r.length < l.length := by
  obtain ⟨t, hne, rfl⟩ := hf h
  have hpos := List.length_pos_iff.mpr hne
  rw [List.length_append]
  omega

theorem Takes.suffix (hf : Takes f) (h : f l = some r) : r <:+ l := by
  obtain ⟨t, -, rfl⟩ := hf h
  exact List.suffix_append t r

theorem taken_append_right (h : r <:+ l) (x : List α) : taken (l ++ x) (r ++ x) = taken l r := by
  obtain ⟨t, rfl⟩ := h
  rw [List.append_assoc, taken_append, taken_append]

/-- One letter. -/
def expect [DecidableEq α] (c : α) : Scanner α
  | [] => none
  | a :: r => if a = c then some r else none

theorem expect_eq_some [DecidableEq α] {c : α} : expect c l = some r ↔ l = c :: r := by
  cases l with
  | nil => simp [expect]
  | cons a l => simp [expect]

theorem expect_eq_none [DecidableEq α] {c : α} : expect c l = none ↔ l.head? ≠ some c := by
  cases l with
  | nil => simp [expect]
  | cons a l => simp [expect]

theorem takes_expect [DecidableEq α] (c : α) : Takes (expect c) := by
  intro l r h
  exact ⟨[c], List.cons_ne_nil c [], expect_eq_some.mp h⟩

/-- The way a text is read. -/
structure Reading (α : Type) where
  quote : α
  up : α → Bool
  down : α → Bool
  /-- Where a word that is neither quoted nor bracketed stops. -/
  stops : α → Bool
  /-- From after a quote to after the one that belongs to it. -/
  literal : Scanner α
  takes : Takes literal
  isLocal : Local literal

namespace Reading

/-- A bare word, which has a letter and stops. -/
def word (D : Reading α) (l : List α) : Option (List α) :=
  match l.findIdx? D.stops with
  | none => none
  | some len => if 0 < len then some (l.drop len) else none

section
variable {D : Reading α}

theorem word_eq_some {l r : List α} :
    D.word l = some r ↔ ∃ len, l.findIdx? D.stops = some len ∧ 0 < len ∧ l.drop len = r := by
  unfold word
  split
  · rename_i hnone
    simp [hnone]
  · rename_i len hlen
    simp [hlen]

theorem takes_word : Takes D.word := by
  intro l r h
  rw [word_eq_some] at h
  obtain ⟨len, hlen, hpos, rfl⟩ := h
  obtain ⟨hlt, _⟩ := List.findIdx?_eq_some_iff_getElem.mp hlen
  refine ⟨l.take len, ?_, (List.take_append_drop len l).symm⟩
  apply List.ne_nil_of_length_pos
  rw [List.length_take]
  omega

theorem local_word : Local D.word := by
  intro l r h x
  rw [word_eq_some] at h ⊢
  obtain ⟨len, hlen, hpos, rfl⟩ := h
  refine ⟨len, ?_, hpos, ?_⟩
  · rw [List.findIdx?_append, hlen]
    rfl
  · obtain ⟨hlt, _⟩ := List.findIdx?_eq_some_iff_getElem.mp hlen
    rw [List.drop_append_of_le_length (Nat.le_of_lt hlt)]

/-- A word ends where it stops. -/
theorem word_append {w : List α} {c : α} (hw : ∀ a ∈ w, D.stops a = false) (hne : w ≠ []) (hc : D.stops c = true)
    (r : List α) : D.word (w ++ c :: r) = some (c :: r) := by
  rw [word_eq_some]
  refine ⟨w.length, ?_, List.length_pos_iff.mpr hne, List.drop_left' rfl⟩
  rw [List.findIdx?_append, List.findIdx?_eq_none_iff.mpr hw]
  simp [List.findIdx?_cons, hc]

end

variable [DecidableEq α] (D : Reading α)

/-- A quoted literal. -/
def string : Scanner α
  | [] => none
  | c :: r => if c = D.quote then D.literal r else none

/-- To the end of the bracket that is `depth` levels up. -/
def bracketed (depth : Nat) : Scanner α
  | [] => none
  | c :: l =>
    if c = D.quote then
      match _h : D.literal l with
      | none => none
      | some r => bracketed depth r
    else if D.up c then bracketed (depth + 1) l
    else if D.down c then if depth ≤ 1 then some l else bracketed (depth - 1) l
    else bracketed depth l
  termination_by l => l.length
  decreasing_by
    · have hlt := Takes.length_lt D.takes _h
      simp only [List.length_cons]
      omega
    all_goals simp

/-- A value: a literal, brackets or a word. -/
def value : Scanner α
  | [] => none
  | c :: l => if c = D.quote then D.literal l else if D.up c then D.bracketed 1 l else D.word (c :: l)

variable {D}

theorem bracketed_cons (depth : Nat) (c : α) (l : List α) :
    D.bracketed depth (c :: l) =
      if c = D.quote then (D.literal l).bind (D.bracketed depth)
      else if D.up c then D.bracketed (depth + 1) l
      else if D.down c then if depth ≤ 1 then some l else D.bracketed (depth - 1) l
      else D.bracketed depth l := by
  rw [bracketed]
  congr 1
  split
  · rename_i h
    rw [h]
    rfl
  · rename_i r h
    rw [h]
    rfl

theorem string_quote (l : List α) : D.string (D.quote :: l) = D.literal l := if_pos rfl

theorem takes_string : Takes D.string := by
  intro l r h
  cases l with
  | nil => cases h
  | cons c l =>
    rw [string] at h
    split at h
    · obtain ⟨t, -, rfl⟩ := D.takes h
      exact ⟨c :: t, List.cons_ne_nil c t, rfl⟩
    · cases h

theorem local_string : Local D.string := by
  intro l r h x
  cases l with
  | nil => cases h
  | cons c l =>
    rw [string] at h
    rw [List.cons_append, string]
    split at h
    · rename_i hc
      rw [if_pos hc]
      exact D.isLocal h x
    · cases h

theorem takes_bracketed (depth : Nat) : Takes (D.bracketed depth) := by
  intro l r h
  fun_induction D.bracketed depth l with
  | case1 depth => cases h
  | case2 depth l hnone => cases h
  | case3 depth l r' hliteral ih =>
    obtain ⟨t, -, rfl⟩ := D.takes hliteral
    obtain ⟨t', -, rfl⟩ := ih h
    exact ⟨D.quote :: (t ++ t'), List.cons_ne_nil _ _, by simp⟩
  | case4 depth c l _ _ ih =>
    obtain ⟨t, -, rfl⟩ := ih h
    exact ⟨c :: t, List.cons_ne_nil c t, rfl⟩
  | case5 depth c l =>
    cases h
    exact ⟨[c], List.cons_ne_nil c [], rfl⟩
  | case6 depth c l _ _ _ _ ih =>
    obtain ⟨t, -, rfl⟩ := ih h
    exact ⟨c :: t, List.cons_ne_nil c t, rfl⟩
  | case7 depth c l _ _ _ ih =>
    obtain ⟨t, -, rfl⟩ := ih h
    exact ⟨c :: t, List.cons_ne_nil c t, rfl⟩

theorem local_bracketed (depth : Nat) : Local (D.bracketed depth) := by
  intro l r h x
  fun_induction D.bracketed depth l with
  | case1 depth => cases h
  | case2 depth l hnone => cases h
  | case3 depth l r' hliteral ih =>
    rw [List.cons_append, bracketed_cons, if_pos rfl, D.isLocal hliteral x]
    exact ih h
  | case4 depth c l hquote hup ih =>
    rw [List.cons_append, bracketed_cons, if_neg hquote, if_pos hup]
    exact ih h
  | case5 depth c l hquote hup hdown hle =>
    cases h
    rw [List.cons_append, bracketed_cons, if_neg hquote, if_neg hup, if_pos hdown, if_pos hle]
  | case6 depth c l hquote hup hdown hle ih =>
    rw [List.cons_append, bracketed_cons, if_neg hquote, if_neg hup, if_pos hdown, if_neg hle]
    exact ih h
  | case7 depth c l hquote hup hdown ih =>
    rw [List.cons_append, bracketed_cons, if_neg hquote, if_neg hup, if_neg hdown]
    exact ih h

theorem takes_value : Takes D.value := by
  intro l r h
  cases l with
  | nil => cases h
  | cons c l =>
    rw [value] at h
    split at h
    · obtain ⟨t, -, rfl⟩ := D.takes h
      exact ⟨c :: t, List.cons_ne_nil c t, rfl⟩
    · split at h
      · obtain ⟨t, -, rfl⟩ := takes_bracketed 1 h
        exact ⟨c :: t, List.cons_ne_nil c t, rfl⟩
      · exact takes_word h

theorem local_value : Local D.value := by
  intro l r h x
  cases l with
  | nil => cases h
  | cons c l =>
    rw [value] at h
    rw [List.cons_append, value]
    split at h
    · rename_i hquote
      rw [if_pos hquote]
      exact D.isLocal h x
    · rename_i hquote
      rw [if_neg hquote]
      split at h
      · rename_i hup
        rw [if_pos hup]
        exact local_bracketed 1 h x
      · rename_i hup
        rw [if_neg hup]
        exact local_word h x

end Reading

/-! ### Members -/

theorem dropWhile_append_of_ne_nil {p : α → Bool} (h : l.dropWhile p ≠ []) (x : List α) :
    (l ++ x).dropWhile p = l.dropWhile p ++ x := by
  rw [List.dropWhile_append, if_neg (by simpa using h)]

theorem local_expect [DecidableEq α] (c : α) : Local (expect c) := by
  intro l r h x
  rw [expect_eq_some] at h ⊢
  rw [h]
  rfl

theorem length_dropWhile_le (p : α → Bool) (l : List α) : (l.dropWhile p).length ≤ l.length :=
  (List.dropWhile_suffix p).length_le

theorem Takes.skip (hf : Takes f) (skip : α → Bool) : Takes fun l => f (l.dropWhile skip) := by
  intro l r h
  obtain ⟨t, hne, ht⟩ := hf h
  refine ⟨l.takeWhile skip ++ t, by simp [hne], ?_⟩
  rw [List.append_assoc, ← ht, List.takeWhile_append_dropWhile]

theorem Local.skip (hf : Local f) (ht : Takes f) (skip : α → Bool) :
    Local fun l => f (l.dropWhile skip) := by
  intro l r h x
  have hne : l.dropWhile skip ≠ [] := by
    apply List.ne_nil_of_length_pos
    have hlt := ht.length_lt h
    omega
  show f ((l ++ x).dropWhile skip) = some (r ++ x)
  rw [dropWhile_append_of_ne_nil hne]
  exact hf h x

/-- A scanner that says what its reading is worth. -/
abbrev Parser (α β : Type) := List α → Option (β × List α)

/-- Letters that follow change nothing for the parser, and with none at hand it reads nothing. -/
structure Parser.IsLocal (p : Parser α β) : Prop where
  nil : p [] = none
  append : ∀ {l r : List α} {b : β}, p l = some (b, r) → ∀ x, p (l ++ x) = some (b, r ++ x)

/-- What a scanner has read, decoded. -/
def reading (f : Scanner α) (decode : List α → Option β) : Parser α β := fun l =>
  (f l).bind fun r => (decode (taken l r)).map (·, r)

theorem reading_eq_some {decode : List α → Option β} {b : β} :
    reading f decode l = some (b, r) ↔ f l = some r ∧ decode (taken l r) = some b := by
  simp only [reading, Option.bind_eq_some_iff, Option.map_eq_some_iff, Prod.mk.injEq]
  constructor
  · intro ⟨r', hr, b', hb, heq, heq'⟩
    subst heq heq'
    exact ⟨hr, hb⟩
  · intro ⟨hr, hb⟩
    exact ⟨r, hr, b, hb, rfl, rfl⟩

theorem local_reading (htakes : Takes f) (hlocal : Local f) (decode : List α → Option β) :
    (reading f decode).IsLocal where
  nil := by
    cases h : f [] with
    | none => rw [reading, h, Option.bind_none]
    | some r => exact absurd (htakes.length_lt h) (Nat.not_lt_zero _)
  append h x := by
    rw [reading_eq_some] at h ⊢
    obtain ⟨hr, hb⟩ := h
    rw [taken_append_right (htakes.suffix hr)]
    exact ⟨hlocal hr x, hb⟩

/-- Two parsers on either side of a letter, with letters to skip before each. -/
def couple [DecidableEq α] (skip : α → Bool) (first : Parser α β) (c : α) (second : Parser α γ) : Parser α (β × γ) :=
  fun l =>
    (first (l.dropWhile skip)).bind fun a =>
      (expect c (a.2.dropWhile skip)).bind fun m =>
        (second (m.dropWhile skip)).map fun b => ((a.1, b.1), b.2)

theorem couple_eq_some [DecidableEq α] {skip : α → Bool} {first : Parser α β} {second : Parser α γ} {c : α}
    {r' : List α} {a : β} {b : γ} : couple skip first c second l = some ((a, b), r') ↔
      ∃ r m, first (l.dropWhile skip) = some (a, r) ∧ expect c (r.dropWhile skip) = some m ∧
        second (m.dropWhile skip) = some (b, r') := by
  simp only [couple, Option.bind_eq_some_iff, Option.map_eq_some_iff, Prod.mk.injEq]
  constructor
  · intro ⟨⟨a', r⟩, hfirst, m, hexpect, ⟨b', r''⟩, hsecond, ⟨ha, hb⟩, hr⟩
    subst ha hb hr
    exact ⟨r, m, hfirst, hexpect, hsecond⟩
  · intro ⟨r, m, hfirst, hexpect, hsecond⟩
    exact ⟨(a, r), hfirst, m, hexpect, (b, r'), hsecond, ⟨rfl, rfl⟩, rfl⟩

theorem Parser.IsLocal.skip {p : Parser α β} (hp : p.IsLocal) {skip : α → Bool} {b : β}
    (h : p (l.dropWhile skip) = some (b, r)) (x : List α) : p ((l ++ x).dropWhile skip) = some (b, r ++ x) := by
  have hne : l.dropWhile skip ≠ [] := by
    intro heq
    rw [heq, hp.nil] at h
    cases h
  rw [dropWhile_append_of_ne_nil hne]
  exact hp.append h x

theorem local_couple [DecidableEq α] {skip : α → Bool} {first : Parser α β} {second : Parser α γ} (c : α)
    (hfirst : first.IsLocal) (hsecond : second.IsLocal) : (couple skip first c second).IsLocal where
  nil := by
    rw [couple, List.dropWhile_nil, hfirst.nil, Option.bind_none]
  append {l r'} p h x := by
    obtain ⟨a, b⟩ := p
    rw [couple_eq_some] at h ⊢
    obtain ⟨r, m, hr, hm, hr'⟩ := h
    have hne : r.dropWhile skip ≠ [] := by
      rw [expect_eq_some.mp hm]
      exact List.cons_ne_nil c m
    refine ⟨r ++ x, m ++ x, hfirst.skip hr x, ?_, hsecond.skip hr' x⟩
    rw [dropWhile_append_of_ne_nil hne]
    exact local_expect c hm x

theorem Parser.IsLocal.map {p : Parser α β} (hp : p.IsLocal) (f : β → γ) :
    Parser.IsLocal fun l => (p l).map fun x => (f x.1, x.2) where
  nil := by
    rw [hp.nil]
    rfl
  append h x := by
    obtain ⟨⟨b, r⟩, hread, heq⟩ := Option.map_eq_some_iff.mp h
    cases heq
    rw [hp.append hread x]
    rfl

/-- A member is read off the front, if it is there, and may be worth something. -/
abbrev Entry (α β : Type) := Parser α (Option β)

/-- Members one after the other, as long as the next is there. -/
def entries (entry : Entry α β) (next : Scanner α) : Nat → List α → List β
  | 0, _ => []
  | n + 1, l =>
    match entry l with
    | none => []
    | some (m, r) =>
      m.toList ++ match next r with
        | none => []
        | some r => entries entry next n r

variable {entry : Entry α β} {next : Scanner α}

theorem entries_succ (entry : Entry α β) (next : Scanner α) (n : Nat) (l : List α) :
    entries entry next (n + 1) l =
      (entry l).elim [] fun p => p.1.toList ++ (next p.2).elim [] (entries entry next n) := by
  rw [entries]
  cases entry l with
  | none => rfl
  | some p =>
    obtain ⟨m, r⟩ := p
    cases hnext : next r <;> simp only [Option.elim, hnext]

theorem entries_eq {n : Nat} {r' : List α} {m : Option β} (hentry : entry l = some (m, r))
    (hnext : next r = some r') :
    entries entry next (n + 1) l = m.toList ++ entries entry next n r' := by
  rw [entries_succ, hentry, Option.elim_some, hnext, Option.elim_some]

theorem entries_last {n : Nat} {m : Option β} (hentry : entry l = some (m, r)) (hnext : next r = none) :
    entries entry next (n + 1) l = m.toList := by
  rw [entries_succ, hentry, Option.elim_some, hnext, Option.elim_none, List.append_nil]

theorem mem_entries {n : Nat} {m : Option β} (hentry : entry l = some (m, r)) {b : β} (hb : b ∈ m.toList) :
    b ∈ entries entry next (n + 1) l := by
  rw [entries_succ, hentry]
  exact List.mem_append_left _ hb

theorem entries_none {n : Nat} (hentry : entry l = none) : entries entry next n l = [] := by
  cases n with
  | zero => rfl
  | succ n => rw [entries_succ, hentry, Option.elim_none]

/-- The members of a part of a text are members of the text. -/
theorem entries_subset (hentry : entry.IsLocal) (hnext : Local next) {n m : Nat} (hle : n ≤ m) {b : β}
    (h : b ∈ entries entry next n l) (x : List α) : b ∈ entries entry next m (l ++ x) := by
  induction n generalizing m l with
  | zero => cases h
  | succ n ih =>
    obtain ⟨m, rfl⟩ := Nat.exists_eq_add_of_lt (Nat.lt_of_lt_of_le (Nat.lt_succ_self n) hle)
    rw [entries_succ] at h
    cases hread : entry l with
    | none =>
      rw [hread] at h
      cases h
    | some p =>
      obtain ⟨b', r⟩ := p
      rw [hread] at h
      have hread := hentry.append hread x
      rcases List.mem_append.mp h with h | h
      · exact mem_entries hread h
      · cases hsep : next r with
        | none =>
          rw [hsep] at h
          cases h
        | some r' =>
          rw [hsep] at h
          rw [entries_eq hread (hnext hsep x)]
          exact List.mem_append_right _ (ih (Nat.le_add_right _ _) h)

end Iii.Lib
