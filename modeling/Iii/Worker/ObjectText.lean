import Iii.Json.Grammar
import Iii.Worker.Lexing

/-! JSON object texts and their members.

An `ObjectText` is a JSON object as it is written, its members in order with the white space around
them. What stands in it is bracketed and quoted as the scans of the envelope expect
(`inside_spells`, `whole_spells`), whatever the strings in it look like. -/
namespace Iii.Worker
open Lib

/-- The bytes of a text. -/
def textBytes (t : List Char) : List Byte := (utf8Code.encode t).map UInt8.ofNat

theorem textBytes_append (t u : List Char) : textBytes (t ++ u) = textBytes t ++ textBytes u := by
  rw [textBytes, utf8Code.encode_append, List.map_append]
  rfl

variable {t : List Char} {c : Char}

theorem textBytes_ascii (h : c.toNat < 128) (t : List Char) :
    textBytes (c :: t) = UInt8.ofNat c.toNat :: textBytes t := by
  have hword : utf8Code.word c = [c.toNat] := by
    show utf8Char c = _
    rw [utf8Char, if_pos h]
  rw [textBytes, utf8Code.encode_cons, hword]
  rfl

/-- A character that is not ASCII has no byte that is. -/
theorem le_of_mem_textBytes (h : ¬c.toNat < 128) {b : Byte} (hb : b ∈ textBytes [c]) : 128 ≤ b.toNat := by
  have hlt := toNat_lt c
  have hbytes : ∀ n ∈ utf8Char c, 128 ≤ n ∧ n < 256 := by
    intro n hn
    unfold utf8Char at hn
    simp only at hn
    split_ifs at hn <;> simp only [List.mem_cons, List.not_mem_nil, or_false] at hn <;> omega
  have hchar : textBytes [c] = (utf8Char c).map UInt8.ofNat := by
    rw [textBytes, utf8Code.encode_cons, List.map_append]
    exact List.append_nil _
  rw [hchar] at hb
  obtain ⟨n, hn, rfl⟩ := List.mem_map.mp hb
  obtain ⟨hle, hlt⟩ := hbytes n hn
  rwa [UInt8.toNat_ofNat_of_lt' hlt]

/-- A byte that no scan looks at. -/
def isPlain (b : Byte) : Bool := b ≠ quote && b ≠ backslash && !opens b && !closes b

theorem inside_plain {l : List Byte} (h : ∀ b ∈ l, isPlain b = true) : Inside l := by
  induction l with
  | nil => exact .nil
  | cons b l ih =>
    rw [List.forall_mem_cons] at h
    obtain ⟨hb, hl⟩ := h
    simp only [isPlain, Bool.and_eq_true, Bool.not_eq_true', decide_eq_true_eq] at hb
    obtain ⟨⟨⟨hquote, hbackslash⟩, hopens⟩, hcloses⟩ := hb
    exact .append (.byte b hquote hbackslash hopens hcloses) (ih hl)

theorem Quoted.append {a b : List Byte} (ha : Quoted a) (hb : Quoted b) : Quoted (a ++ b) := by
  induction ha with
  | nil => exact hb
  | plain c hquote hbackslash _ ih => exact .plain c hquote hbackslash ih
  | escape c _ ih => exact .escape c ih

theorem quoted_plain {l : List Byte} (h : ∀ b ∈ l, b ≠ quote ∧ b ≠ backslash) : Quoted l := by
  induction l with
  | nil => exact .nil
  | cons b l ih =>
    rw [List.forall_mem_cons] at h
    exact .plain b h.1.1 h.1.2 (ih h.2)

/-- An ASCII byte is the character's own. -/
theorem textByte_ne {d : Char} (hc : c.toNat < 128) (hd : d.toNat < 128) (h : c ≠ d) :
    UInt8.ofNat c.toNat ≠ UInt8.ofNat d.toNat := by
  intro heq
  apply h
  apply Char.toNat_inj.mp
  have htoNat := congrArg UInt8.toNat heq
  rwa [UInt8.toNat_ofNat_of_lt' (by show _ < 256; omega), UInt8.toNat_ofNat_of_lt' (by show _ < 256; omega)] at htoNat

theorem quoted_ascii (h : ∀ c ∈ t, c.toNat < 128 ∧ c ≠ '"' ∧ c ≠ '\\') : Quoted (textBytes t) := by
  apply quoted_plain
  induction t with
  | nil => exact List.forall_mem_nil _
  | cons c t ih =>
    rw [List.forall_mem_cons] at h
    obtain ⟨⟨hc, hquote, hbackslash⟩, ht⟩ := h
    rw [textBytes_ascii hc, List.forall_mem_cons]
    exact ⟨⟨textByte_ne hc (by decide) hquote, textByte_ne hc (by decide) hbackslash⟩, ih ht⟩

theorem hexOf_ascii {v : Nat} (h : hexOf c.toNat = some v) : c.toNat < 128 ∧ c ≠ '"' ∧ c ≠ '\\' := by
  have hc : c.toNat < 128 ∧ c.toNat ≠ 34 ∧ c.toNat ≠ 92 := by
    unfold hexOf at h
    split_ifs at h <;> omega
  refine ⟨hc.1, ?_, ?_⟩
  · rintro rfl
    exact absurd rfl hc.2.1
  · rintro rfl
    exact absurd rfl hc.2.2

theorem quoted_unicode {n : Nat} (h : UnicodeEscape t n) : Quoted (textBytes t) := by
  obtain ⟨a, b, c, d, rfl, hhex⟩ := h.shape
  obtain ⟨va, ha, vb, hb, vc, hc, vd, hd, -⟩ : ∃ va, hexOf a.toNat = some va ∧
      ∃ vb, hexOf b.toNat = some vb ∧ ∃ vc, hexOf c.toNat = some vc ∧
      ∃ vd, hexOf d.toNat = some vd ∧ some (((va * 16 + vb) * 16 + vc) * 16 + vd) = some n := by
    simpa only [hex4, bind, Option.bind_eq_some_iff, pure] using hhex
  rw [textBytes_ascii (by decide), textBytes_ascii (by decide)]
  apply Quoted.escape
  apply quoted_ascii
  simp only [List.forall_mem_cons]
  exact ⟨hexOf_ascii ha, hexOf_ascii hb, hexOf_ascii hc, hexOf_ascii hd, List.forall_mem_nil _⟩

theorem quoted_char (h : SpellsChar t c) : Quoted (textBytes t) := by
  cases h with
  | plain _ hquote hbackslash =>
    by_cases hc : c.toNat < 128
    · apply quoted_ascii
      simp only [List.forall_mem_cons]
      exact ⟨⟨hc, hquote, hbackslash⟩, List.forall_mem_nil _⟩
    · apply quoted_plain
      intro b hb
      have hle := le_of_mem_textBytes hc hb
      refine ⟨?_, ?_⟩ <;>
      · rintro rfl
        exact absurd hle (by decide)
  | escape e _ he =>
    have hascii : e.toNat < 128 := by
      unfold escapeOf at he
      split_ifs at he <;> simp_all
    rw [textBytes_ascii (by decide), textBytes_ascii hascii]
    exact .escape _ .nil
  | unicode _ n ht _ => exact quoted_unicode ht
  | pair t t' n n' ht ht' _ _ =>
    rw [textBytes_append]
    exact (quoted_unicode ht).append (quoted_unicode ht')

theorem quoted_chars {cs : List Char} (h : SpellsChars t cs) : Quoted (textBytes t) := by
  induction h with
  | nil => exact .nil
  | cons hc _ ih =>
    rw [textBytes_append]
    exact (quoted_char hc).append ih

/-- What a string's text is between its quotes. -/
theorem textBytes_string {s : String} (h : SpellsString t s) :
    ∃ b, Quoted b ∧ textBytes t = quote :: (b ++ [quote]) := by
  obtain ⟨hchars⟩ := h
  refine ⟨_, quoted_chars hchars, ?_⟩
  rw [textBytes_ascii (by decide), textBytes_append, textBytes_ascii (by decide)]
  rfl

/-! ### What is bracketed -/

theorem textBytes_plain (h : ∀ c ∈ t, c.toNat < 128 ∧ isPlain (UInt8.ofNat c.toNat) = true) :
    ∀ b ∈ textBytes t, isPlain b = true := by
  induction t with
  | nil => exact List.forall_mem_nil _
  | cons c t ih =>
    rw [List.forall_mem_cons] at h
    rw [textBytes_ascii h.1.1, List.forall_mem_cons]
    exact ⟨h.1.2, ih h.2⟩

theorem of_space (h : isSpace c = true) :
    c.toNat < 128 ∧ isPlain (UInt8.ofNat c.toNat) = true ∧ isJsonSpace (UInt8.ofNat c.toNat) = true := by
  simp only [isSpace, Bool.or_eq_true, decide_eq_true_iff] at h
  rcases h with ((rfl | rfl) | rfl) | rfl <;> decide

theorem inside_space {w : List Char} (hw : Space w) : Inside (textBytes w) :=
  inside_plain (textBytes_plain fun c hc => ⟨(of_space (hw c hc)).1, (of_space (hw c hc)).2.1⟩)

/-- A number is spelled with ASCII characters that no scan stops at. -/
theorem of_numeric (h : isNumeric c = true) :
    c.toNat < 128 ∧ isPlain (UInt8.ofNat c.toNat) = true ∧ endsValue (UInt8.ofNat c.toNat) = false ∧
      startsValue (UInt8.ofNat c.toNat) = false := by
  have hdigits : ∀ n, 48 ≤ n → n < 58 → n < 128 ∧ isPlain (UInt8.ofNat n) = true ∧
      endsValue (UInt8.ofNat n) = false ∧ startsValue (UInt8.ofNat n) = false := by
    decide
  simp only [isNumeric, isNumberChar, Bool.or_eq_true, decide_eq_true_iff] at h
  rcases h with ((((h | rfl) | rfl) | rfl) | rfl) | rfl
  · simp only [Char.isDigit, Bool.and_eq_true, decide_eq_true_eq] at h
    exact hdigits c.toNat h.1 (Nat.lt_succ_of_le h.2)
  all_goals decide

theorem inside_numeric (h : ∀ c ∈ t, isNumeric c = true) : Inside (textBytes t) :=
  inside_plain (textBytes_plain fun c hc => ⟨(of_numeric (h c hc)).1, (of_numeric (h c hc)).2.1⟩)

theorem inside_word (h : t.all fun c => c.toNat < 128 && isPlain (UInt8.ofNat c.toNat)) :
    Inside (textBytes t) := by
  simp only [List.all_eq_true, Bool.and_eq_true, decide_eq_true_eq] at h
  exact inside_plain (textBytes_plain h)

theorem inside_string {s : String} (h : SpellsString t s) : Inside (textBytes t) := by
  obtain ⟨b, hb, ht⟩ := textBytes_string h
  rw [ht]
  exact .string hb

theorem Inside.text_append {u : List Char} (ht : Inside (textBytes t)) (hu : Inside (textBytes u)) :
    Inside (textBytes (t ++ u)) := by
  rw [textBytes_append]
  exact ht.append hu

theorem Inside.text_comma {u : List Char} (ht : Inside (textBytes t)) (hu : Inside (textBytes u)) :
    Inside (textBytes (t ++ ',' :: u)) :=
  ht.text_append ((inside_word (t := [',']) (by decide)).text_append hu)

/-- The bytes between brackets. -/
theorem textBytes_brackets {o : Char} (h : o = '[' ∧ c = ']' ∨ o = '{' ∧ c = '}') :
    ∃ o' c', opens o' = true ∧ closes c' = true ∧ textBytes (o :: (t ++ [c])) = o' :: (textBytes t ++ [c']) := by
  rcases h with ⟨rfl, rfl⟩ | ⟨rfl, rfl⟩
  · refine ⟨bracketOpen, bracketClose, by decide, by decide, ?_⟩
    rw [textBytes_ascii (by decide), textBytes_append, textBytes_ascii (by decide)]
    rfl
  · refine ⟨braceOpen, braceClose, by decide, by decide, ?_⟩
    rw [textBytes_ascii (by decide), textBytes_append, textBytes_ascii (by decide)]
    rfl

theorem Inside.text_brackets (ht : Inside (textBytes t)) {o : Char} (h : o = '[' ∧ c = ']' ∨ o = '{' ∧ c = '}') :
    Inside (textBytes (o :: (t ++ [c]))) := by
  obtain ⟨o', c', ho, hc, heq⟩ := textBytes_brackets (t := t) h
  rw [heq]
  exact .brackets ho hc ht

mutual
/-- A JSON text is in balance. -/
theorem inside_spells : ∀ {t : List Char} {j : Json String NumText}, Spells t j → Inside (textBytes t)
  | _, _, .null => inside_word (by decide)
  | _, _, .true => inside_word (by decide)
  | _, _, .false => inside_word (by decide)
  | _, _, .number n h => inside_numeric h
  | _, _, .string h => inside_string h
  | _, _, .array h => (inside_items h).text_brackets (.inl ⟨rfl, rfl⟩)
  | _, _, .object h => (inside_members h).text_brackets (.inr ⟨rfl, rfl⟩)
  | _, _, .space hw hw' h => (inside_space hw).text_append ((inside_spells h).text_append (inside_space hw'))
theorem inside_items : ∀ {t : List Char} {items : List (Json String NumText)}, SpellsItems t items →
    Inside (textBytes t)
  | _, _, .nil hw => inside_space hw
  | _, _, .one h => inside_spells h
  | _, _, .cons h hs => (inside_spells h).text_comma (inside_items hs)
theorem inside_members : ∀ {t : List Char} {members : List (String × Json String NumText)},
    SpellsMembers t members → Inside (textBytes t)
  | _, _, .nil hw => inside_space hw
  | _, _, .one h => inside_member h
  | _, _, .cons h hs => (inside_member h).text_comma (inside_members hs)
theorem inside_member : ∀ {t : List Char} {m : String × Json String NumText}, SpellsMember t m →
    Inside (textBytes t)
  | _, _, .member hw hk hw' h =>
    (inside_space hw).text_append ((inside_string hk).text_append
      ((inside_space hw').text_append ((inside_word (t := [':']) (by decide)).text_append (inside_spells h))))
end

/-! ### Values -/

/-- A text with no white space around it. -/
structure Tight (t : List Char) : Prop where
  ne_nil : t ≠ []
  head : ∀ c ∈ t.head?, isSpace c = false
  last : ∀ c ∈ t.getLast?, isSpace c = false

theorem Tight.of_space {w w' : List Char} (h : Tight (w ++ (t ++ w'))) (hw : Space w) (hw' : Space w') :
    w = [] ∧ w' = [] := by
  refine ⟨?_, ?_⟩
  · cases w with
    | nil => rfl
    | cons c w =>
      have hspace := hw c (List.mem_cons_self ..)
      have htight := h.head c rfl
      rw [hspace] at htight
      cases htight
  · rcases List.eq_nil_or_concat w' with rfl | ⟨w', c, rfl⟩
    · rfl
    · have hspace := hw' c (by simp)
      have htight := h.last c (by simp)
      rw [hspace] at htight
      cases htight

theorem whole_word (hne : t ≠ [])
    (h : ∀ c ∈ t, c.toNat < 128 ∧ isPlain (UInt8.ofNat c.toNat) = true ∧
    endsValue (UInt8.ofNat c.toNat) = false ∧ startsValue (UInt8.ofNat c.toNat) = false) :
    Whole (textBytes t) := by
  apply Whole.word
  · cases t with
    | nil => exact absurd rfl hne
    | cons c t =>
      rw [textBytes_ascii (h c (List.mem_cons_self ..)).1]
      exact List.cons_ne_nil _ _
  · clear hne
    induction t with
    | nil => exact List.forall_mem_nil _
    | cons c t ih =>
      rw [List.forall_mem_cons] at h
      obtain ⟨⟨hc, hplain, hends, hstarts⟩, ht⟩ := h
      have hquote : UInt8.ofNat c.toNat ≠ quote := by
        simp only [isPlain, Bool.and_eq_true, decide_eq_true_eq] at hplain
        exact hplain.1.1.1
      rw [textBytes_ascii hc, List.forall_mem_cons]
      exact ⟨⟨hquote, hends, hstarts⟩, ih ht⟩

theorem whole_spells : ∀ {t : List Char} {j : Json String NumText}, Spells t j → Tight t → Whole (textBytes t)
  | _, _, .null, _ => whole_word (List.cons_ne_nil _ _) (List.forall_iff_forall_mem.mp (by decide))
  | _, _, .true, _ => whole_word (List.cons_ne_nil _ _) (List.forall_iff_forall_mem.mp (by decide))
  | _, _, .false, _ => whole_word (List.cons_ne_nil _ _) (List.forall_iff_forall_mem.mp (by decide))
  | _, _, .number n h, htight => whole_word htight.ne_nil fun c hc => of_numeric (h c hc)
  | _, _, .string h, _ => by
    obtain ⟨b, hb, ht⟩ := textBytes_string h
    rw [ht]
    exact .string hb
  | _, _, .array (t := t) h, _ => by
    obtain ⟨o, c, ho, hc, ht⟩ := textBytes_brackets (t := t) (.inl ⟨rfl, rfl⟩)
    rw [ht]
    exact .brackets ho hc (inside_items h)
  | _, _, .object (t := t) h, _ => by
    obtain ⟨o, c, ho, hc, ht⟩ := textBytes_brackets (t := t) (.inr ⟨rfl, rfl⟩)
    rw [ht]
    exact .brackets ho hc (inside_members h)
  | _, _, .space hw hw' h, htight => by
    obtain ⟨rfl, rfl⟩ := htight.of_space hw hw'
    rw [List.nil_append, List.append_nil] at htight ⊢
    exact whole_spells h htight

/-- The string that a value is, if it is one. -/
def asString : Json String NumText → Option String
  | .string s => some s
  | _ => none

theorem asString_eq_some {j : Json String NumText} {v : String} : asString j = some v ↔ j = .string v := by
  cases j <;> simp [asString]

/-- A value starts with a quote when it is a string. -/
theorem head?_spells : ∀ {t : List Char} {j : Json String NumText}, Spells t j → Tight t →
    ((textBytes t).head? = some quote ↔ (asString j).isSome)
  | _, _, .null, _ => by decide
  | _, _, .true, _ => by decide
  | _, _, .false, _ => by decide
  | _, _, .number n h, htight => by
    obtain ⟨c, t, ht⟩ := List.exists_cons_of_ne_nil htight.ne_nil
    rw [ht] at h ⊢
    obtain ⟨hc, hplain, -, -⟩ := of_numeric (h c (List.mem_cons_self ..))
    simp only [isPlain, Bool.and_eq_true, decide_eq_true_eq] at hplain
    rw [textBytes_ascii hc]
    simp [hplain.1.1.1, asString]
  | _, _, .string h, _ => by
    obtain ⟨b, -, ht⟩ := textBytes_string h
    rw [ht]
    simp [asString]
  | _, _, .array h, _ => by
    rw [textBytes_ascii (by decide)]
    simp only [List.head?_cons, asString]
    decide
  | _, _, .object h, _ => by
    rw [textBytes_ascii (by decide)]
    simp only [List.head?_cons, asString]
    decide
  | _, _, .space hw hw' h, htight => by
    obtain ⟨rfl, rfl⟩ := htight.of_space hw hw'
    rw [List.nil_append, List.append_nil] at htight ⊢
    exact head?_spells h htight

/-! ### Objects -/

/-- A member of an object as it is written: a key, a colon and a value, with white space around each. -/
structure MemberText where
  name : String
  json : Json String NumText
  left : List Char
  key : List Char
  middle : List Char
  gap : List Char
  value : List Char
  right : List Char
  hleft : Space left
  hkey : SpellsString key name
  hmiddle : Space middle
  hgap : Space gap
  hvalue : Spells value json
  tight : Tight value
  hright : Space right

namespace MemberText

/-- From the key to the value. -/
def core (m : MemberText) : List Char := m.key ++ (m.middle ++ ':' :: (m.gap ++ m.value))

def chars (m : MemberText) : List Char := m.left ++ (m.core ++ m.right)

/-- Members with commas between them. -/
def joined : List MemberText → List Char
  | [] => []
  | [m] => m.chars
  | m :: ms => m.chars ++ ',' :: joined ms

end MemberText

/-- A JSON object as it is written. White space that stands alone in it is `gap`. -/
structure ObjectText where
  before : List Char
  gap : List Char
  members : List MemberText
  after : List Char
  hbefore : Space before
  hgap : Space gap
  hafter : Space after

def ObjectText.chars (o : ObjectText) : List Char :=
  o.before ++ '{' :: (o.gap ++ (MemberText.joined o.members ++ '}' :: o.after))

def ObjectText.bytes (o : ObjectText) : List Byte := textBytes o.chars

namespace ObjectText
variable (o : ObjectText)

/-- What stands before the key of a member that so many come before. -/
def lead (ps : List MemberText) (m : MemberText) : List Char :=
  o.before ++ '{' :: (o.gap ++ (ps.flatMap (fun p => p.chars ++ [',']) ++ m.left))

/-- What stands after the value of a member that so many come after. -/
def rest (m : MemberText) (qs : List MemberText) : List Char :=
  m.right ++ (qs.flatMap (fun q => ',' :: q.chars) ++ '}' :: o.after)

end ObjectText

theorem MemberText.joined_cons (m n : MemberText) (ms : List MemberText) :
    joined (m :: n :: ms) = m.chars ++ ',' :: joined (n :: ms) := rfl

theorem MemberText.joined_append (ps : List MemberText) (m : MemberText) (qs : List MemberText) :
    joined (ps ++ m :: qs) = ps.flatMap (fun p => p.chars ++ [',']) ++ (m.chars ++ qs.flatMap fun q => ',' ::
        q.chars) := by
  induction ps with
  | nil =>
    rw [List.nil_append, List.flatMap_nil, List.nil_append]
    induction qs generalizing m with
    | nil => rw [joined, List.flatMap_nil, List.append_nil]
    | cons q qs ih => rw [joined_cons, ih, List.flatMap_cons, List.cons_append]
  | cons p ps ih =>
    cases ps with
    | nil =>
      rw [List.nil_append] at ih
      rw [List.cons_append, List.nil_append, joined_cons, ih]
      simp
    | cons p' ps =>
      rw [List.cons_append] at ih ⊢
      rw [List.cons_append, joined_cons, ih]
      simp

theorem ObjectText.chars_eq {o : ObjectText} {ps qs : List MemberText} {m : MemberText}
    (h : o.members = ps ++ m :: qs) : o.chars = o.lead ps m ++ (m.core ++ o.rest m qs) := by
  rw [chars, h, MemberText.joined_append, lead, rest, MemberText.chars]
  simp only [List.append_assoc, List.cons_append]

theorem tight_string {s : String} (h : SpellsString t s) : Tight t := by
  obtain ⟨h⟩ := h
  refine ⟨List.cons_ne_nil _ _, ?_, ?_⟩
  · intro c hc
    cases hc
    rfl
  · intro c hc
    rw [← List.cons_append, List.getLast?_concat] at hc
    cases hc
    rfl

end Iii.Worker
