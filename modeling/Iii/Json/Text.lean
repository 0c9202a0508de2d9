import Iii.Json.Number
import Iii.Json.Walk
import Iii.Lib.LexCode
import Mathlib.Data.Char
import Mathlib.Data.List.Sort

/-! JSON text as `serde_json` writes it, and the order of strings.

Rust and Go compare strings by their UTF-8 bytes, which is the order of their code
points (`utf8Code`). The compact text of a value with its object keys sorted
(`canonical`) determines the value up to the order of its keys
(`canonical_inj`): strings are escaped one character at a time, and a number ends
where the first character that no number holds stands. The text of a double is
the formatter's own business; `FloatText` is what is used of it. -/
namespace Iii

/-! ### UTF-8 -/

/-- The UTF-8 octets of a character. -/
def utf8Char (c : Char) : List Nat :=
  let v := c.toNat
  if v < 0x80 then [v]
  else if v < 0x800 then [0xC0 + v / 64, 0x80 + v % 64]
  else if v < 0x10000 then [0xE0 + v / 4096, 0x80 + v / 64 % 64, 0x80 + v % 64]
  else [0xF0 + v / 262144, 0x80 + v / 4096 % 64, 0x80 + v / 64 % 64, 0x80 + v % 64]

variable {x y : List Nat}

theorem lex_one {a b : Nat} (h : a < b) : a :: x < b :: y := List.Lex.rel h

theorem lex_two {a a' b b' : Nat} (h : a < b ∨ a = b ∧ a' < b') :
    a :: a' :: x < b :: b' :: y := by
  rcases h with h | ⟨rfl, h⟩
  · exact lex_one h
  · exact List.Lex.cons (lex_one h)

theorem lex_three {a a' a'' b b' b'' : Nat} (h : a < b ∨ a = b ∧ (a' < b' ∨ a' = b' ∧ a'' < b'')) :
    a :: a' :: a'' :: x < b :: b' :: b'' :: y := by
  rcases h with h | ⟨rfl, h⟩
  · exact lex_one h
  · exact List.Lex.cons (lex_two h)

theorem lex_four {a a' a'' a''' b b' b'' b''' : Nat}
    (h : a < b ∨ a = b ∧ (a' < b' ∨ a' = b' ∧ (a'' < b'' ∨ a'' = b'' ∧ a''' < b'''))) :
    a :: a' :: a'' :: a''' :: x < b :: b' :: b'' :: b''' :: y := by
  rcases h with h | ⟨rfl, h⟩
  · exact lex_one h
  · exact List.Lex.cons (lex_three h)

theorem toNat_lt_of_lt {a b : Char} (h : a < b) : a.toNat < b.toNat := h

theorem toNat_lt (c : Char) : c.toNat < 0x110000 := by
  have := c.valid
  simp only [Char.toNat, UInt32.isValidChar, Nat.isValidChar] at *
  omega

/-- UTF-8 keeps the order of code points: a longer encoding has a larger lead octet. -/
def utf8Code : Lib.LexCode Char Nat where
  word := utf8Char
  ne_nil := fun c => by
    unfold utf8Char
    simp only
    split_ifs <;> simp
  lt_of_lt := fun a b h x y => by
    have hab := toNat_lt_of_lt h
    have hb := toNat_lt b
    simp only [utf8Char]
    split_ifs <;> simp only [List.cons_append, List.nil_append] <;>
      first
      | exact lex_one (by omega)
      | exact lex_two (by omega)
      | exact lex_three (by omega)
      | exact lex_four (by omega)

/-- The UTF-8 bytes of a string. -/
def utf8 (s : String) : List Nat := utf8Code.encode s.toList

/-! ### Strings and numbers -/

def hexDigit (n : Nat) : Char := Nat.digitChar n

/-- One character inside a JSON string. -/
def escapeChar (c : Char) : List Char :=
  if c = '"' then ['\\', '"']
  else if c = '\\' then ['\\', '\\']
  else if c.toNat = 8 then ['\\', 'b']
  else if c.toNat = 9 then ['\\', 't']
  else if c.toNat = 10 then ['\\', 'n']
  else if c.toNat = 12 then ['\\', 'f']
  else if c.toNat = 13 then ['\\', 'r']
  else if c.toNat < 32 then ['\\', 'u', '0', '0', hexDigit (c.toNat / 16), hexDigit (c.toNat % 16)]
  else [c]

def writeString (s : String) : List Char := '"' :: (s.toList.flatMap escapeChar ++ ['"'])

/-- A character some number is written with. -/
def isNumberChar (c : Char) : Bool := c.isDigit || c = '-' || c = '+' || c = '.' || c = 'e'

/-- What is used of the formatter of doubles: it writes a number that is never
spelled as an integer, and the shortest text that reads back as the same double, so
no two doubles share one. -/
structure FloatText where
  write : F64 → List Char
  numeric : ∀ f, ∀ c ∈ write f, isNumberChar c = true
  fractional : ∀ f, '.' ∈ write f ∨ 'e' ∈ write f
  injective : Function.Injective write

def writeNumber (ft : FloatText) : Number → List Char
  | .posInt u => Nat.toDigits 10 u
  | .negInt m => '-' :: Nat.toDigits 10 (m + 1)
  | .float f => ft.write f

/-! ### Values -/

/-- A value as the engine holds it. -/
abbrev Value := Json String Number

section Write
variable (ft : FloatText)

mutual
/-- Compact JSON text, members in the order the map keeps. -/
def write : Value → List Char
  | .null => ['n', 'u', 'l', 'l']
  | .bool true => ['t', 'r', 'u', 'e']
  | .bool false => ['f', 'a', 'l', 's', 'e']
  | .number n => writeNumber ft n
  | .string s => writeString s
  | .array [] => ['[', ']']
  | .array (j :: rest) => '[' :: (write j ++ writeItems rest ++ [']'])
  | .object [] => ['{', '}']
  | .object (m :: rest) =>
    '{' :: (writeString m.1 ++ ':' :: write m.2 ++ writeMembers rest ++ ['}'])
/-- The items after the first. -/
def writeItems : List Value → List Char
  | [] => []
  | j :: rest => ',' :: (write j ++ writeItems rest)
/-- The members after the first. -/
def writeMembers : List (String × Value) → List Char
  | [] => []
  | m :: rest => ',' :: (writeString m.1 ++ ':' :: write m.2 ++ writeMembers rest)
end

/-- `a.0.cmp(b.0)`: entries by the byte order of their key. -/
def keyLe {α : Type} (a b : String × α) : Prop := utf8 a.1 ≤ utf8 b.1

instance {α : Type} : DecidableRel (keyLe (α := α)) := fun a b =>
  inferInstanceAs (Decidable (utf8 a.1 ≤ utf8 b.1))

instance {α : Type} : Std.Total (keyLe (α := α)) := ⟨fun a b => le_total (utf8 a.1) (utf8 b.1)⟩
instance {α : Type} : IsTrans (String × α) keyLe := ⟨fun _ _ _ h h' => le_trans h h'⟩

mutual
/-- The value with the members of every object in key order. -/
def sortKeys : Value → Value
  | .array items => .array (sortItems items)
  | .object members => .object ((sortMembers members).insertionSort keyLe)
  | j => j
def sortItems : List Value → List Value
  | [] => []
  | j :: rest => sortKeys j :: sortItems rest
def sortMembers : List (String × Value) → List (String × Value)
  | [] => []
  | m :: rest => (m.1, sortKeys m.2) :: sortMembers rest
end

/-- `write_canonical`: compact JSON with object keys sorted by byte order. -/
def canonical (j : Value) : List Char := write ft (sortKeys j)

end Write

theorem sortItems_eq (items : List Value) : sortItems items = items.map sortKeys := by
  induction items with
  | nil => rfl
  | cons j rest ih => rw [sortItems, ih, List.map_cons]

theorem sortMembers_eq (members : List (String × Value)) :
    sortMembers members = members.map (fun m => (m.1, sortKeys m.2)) := by
  induction members with
  | nil => rfl
  | cons m rest ih => rw [sortMembers, ih, List.map_cons]

theorem sortKeys_array (items : List Value) : sortKeys (.array items) = .array (items.map sortKeys) := by
  rw [sortKeys, sortItems_eq]

theorem sortKeys_object (members : List (String × Value)) : sortKeys (.object members) =
    .object ((members.map (fun m => (m.1, sortKeys m.2))).insertionSort keyLe) := by
  rw [sortKeys, sortMembers_eq]

/-! ### The text determines the value -/

def hexValue (c : Char) : Nat := if c.isDigit then c.toNat - 48 else c.toNat - 87

/-- Reads back one character of a JSON string. -/
def unescape : List Char → Option (Char × List Char)
  | '\\' :: 'u' :: '0' :: '0' :: h :: l :: rest =>
    some (Char.ofNat (hexValue h * 16 + hexValue l), rest)
  | '\\' :: 'b' :: rest => some (Char.ofNat 8, rest)
  | '\\' :: 't' :: rest => some (Char.ofNat 9, rest)
  | '\\' :: 'n' :: rest => some (Char.ofNat 10, rest)
  | '\\' :: 'f' :: rest => some (Char.ofNat 12, rest)
  | '\\' :: 'r' :: rest => some (Char.ofNat 13, rest)
  | '\\' :: c :: rest => some (c, rest)
  | c :: rest => some (c, rest)
  | [] => none

theorem hexValue_hexDigit : ∀ n, n < 16 → hexValue (hexDigit n) = n := by decide

theorem ofNat_of_toNat {c : Char} {n : Nat} (h : c.toNat = n) : Char.ofNat n = c := by
  rw [← h, Char.ofNat_toNat]

theorem unescape_escapeChar (c : Char) (rest : List Char) :
    unescape (escapeChar c ++ rest) = some (c, rest) := by
  unfold escapeChar
  split_ifs with hq hb h8 h9 h10 h12 h13 h32
  · subst hq; rfl
  · subst hb; rfl
  · simpa [unescape] using ofNat_of_toNat h8
  · simpa [unescape] using ofNat_of_toNat h9
  · simpa [unescape] using ofNat_of_toNat h10
  · simpa [unescape] using ofNat_of_toNat h12
  · simpa [unescape] using ofNat_of_toNat h13
  · have hh := hexValue_hexDigit (c.toNat / 16) (by omega)
    have hl := hexValue_hexDigit (c.toNat % 16) (by omega)
    simp [unescape, hh, hl, ofNat_of_toNat (Nat.div_add_mod' c.toNat 16).symm]
  · rw [List.cons_append, List.nil_append]
    unfold unescape
    split <;> simp_all

theorem escapeChar_append_inj {c d : Char} {x y : List Char}
    (h : escapeChar c ++ x = escapeChar d ++ y) : c = d ∧ x = y := by
  have := unescape_escapeChar c x
  rw [h, unescape_escapeChar] at this
  simpa [eq_comm] using this

/-- No escaped character starts with the closing quote. -/
theorem escapeChar_ne_quote (c : Char) (x y : List Char) : escapeChar c ++ x ≠ '"' :: y := by
  unfold escapeChar
  split_ifs <;> simp_all

theorem escape_append_inj {a b : List Char} {x y : List Char}
    (h : a.flatMap escapeChar ++ '"' :: x = b.flatMap escapeChar ++ '"' :: y) : a = b ∧ x = y := by
  induction a generalizing b with
  | nil =>
    cases b with
    | nil => simpa using h
    | cons d b =>
      rw [List.flatMap_cons, List.append_assoc] at h
      exact absurd h.symm (escapeChar_ne_quote d _ _)
  | cons c a ih =>
    cases b with
    | nil =>
      rw [List.flatMap_cons, List.append_assoc] at h
      exact absurd h (escapeChar_ne_quote c _ _)
    | cons d b =>
      rw [List.flatMap_cons, List.flatMap_cons, List.append_assoc, List.append_assoc] at h
      obtain ⟨rfl, hrest⟩ := escapeChar_append_inj h
      obtain ⟨rfl, rfl⟩ := ih hrest
      exact ⟨rfl, rfl⟩

theorem writeString_append_inj {a b : String} {x y : List Char}
    (h : writeString a ++ x = writeString b ++ y) : a = b ∧ x = y := by
  unfold writeString at h
  simp only [List.cons_append, List.append_assoc, List.nil_append, List.cons.injEq, true_and] at h
  obtain ⟨hab, rfl⟩ := escape_append_inj h
  exact ⟨String.toList_inj.mp hab, rfl⟩

section Numbers
variable (ft : FloatText)

theorem isNumberChar_of_isDigit {c : Char} (h : c.isDigit = true) : isNumberChar c = true := by
  simp [isNumberChar, h]

theorem isDigit_toDigits {n : Nat} {c : Char} (h : c ∈ Nat.toDigits 10 n) : c.isDigit = true :=
  Nat.isDigit_of_mem_toDigits (by decide) (by decide) h

theorem toDigits_injective : Function.Injective (Nat.toDigits 10) := fun a b h => by
  rw [← Nat.ofDigitChars_ten_toDigits (n := a), h, Nat.ofDigitChars_ten_toDigits]

/-- A formatter that writes `unit` units of `10^-1074` for each `2^-1074`. -/
def FloatText.scaled (unit : Nat) (hunit : 0 < unit) : FloatText where
  write f := (if f.neg then ['-'] else []) ++
    (Nat.toDigits 10 (f.mant * 2 ^ f.exp * unit) ++ ['e', '-', '1', '0', '7', '4'])
  numeric f c hc := by
    rw [List.mem_append, List.mem_append] at hc
    rcases hc with hc | hc | hc
    · split_ifs at hc
      · obtain rfl := List.mem_singleton.mp hc
        rfl
      · cases hc
    · exact isNumberChar_of_isDigit (isDigit_toDigits hc)
    · exact List.all_eq_true.mp (by decide) c hc
  fractional f := by simp
  injective a b h := by
    have hdigits : ∀ (n : Nat) (x : List Char), Nat.toDigits 10 n ++ ['e', '-', '1', '0', '7', '4']
        ≠ '-' :: x := by
      intro n x h
      obtain ⟨d, rest, hd⟩ := List.exists_cons_of_ne_nil (Nat.toDigits_ne_nil (n := n) (b := 10))
      have hdigit := isDigit_toDigits (n := n) (c := d) (by rw [hd]; exact List.mem_cons_self ..)
      rw [hd, List.cons_append, List.cons.injEq] at h
      rw [h.1] at hdigit
      cases hdigit
    have hmagnitude : ∀ {m n : Nat}, Nat.toDigits 10 (m * unit) ++ ['e', '-', '1', '0', '7', '4'] =
        Nat.toDigits 10 (n * unit) ++ ['e', '-', '1', '0', '7', '4'] → m = n := fun h =>
      Nat.eq_of_mul_eq_mul_right hunit (toDigits_injective (List.append_cancel_right h))
    cases ha : a.neg <;> cases hb : b.neg <;> simp only [ha, hb, if_true, Bool.false_eq_true, if_false,
      List.cons_append, List.nil_append, List.cons.injEq, true_and] at h
    · exact F64.ext_magnitude (ha.trans hb.symm) (hmagnitude h)
    · exact absurd h (hdigits _ _)
    · exact absurd h.symm (hdigits _ _)
    · exact F64.ext_magnitude (ha.trans hb.symm) (hmagnitude h)

/-- The formatter that writes every digit of a double. -/
def FloatText.exact : FloatText := .scaled (5 ^ 1074) (Nat.pow_pos (by decide))

theorem writeNumber_numeric (n : Number) : ∀ c ∈ writeNumber ft n, isNumberChar c = true := by
  intro c hc
  cases n with
  | posInt u => exact isNumberChar_of_isDigit (isDigit_toDigits hc)
  | negInt m =>
    rcases List.mem_cons.mp hc with rfl | hc
    · rfl
    · exact isNumberChar_of_isDigit (isDigit_toDigits hc)
  | float f => exact ft.numeric f c hc

theorem writeNumber_ne_nil (n : Number) : writeNumber ft n ≠ [] := by
  cases n with
  | posInt u => exact Nat.toDigits_ne_nil
  | negInt m => exact List.cons_ne_nil _ _
  | float f =>
    intro h
    have h' : ft.write f = [] := h
    have := ft.fractional f
    simp [h'] at this

/-- A double is never spelled with digits and a sign alone. -/
theorem float_ne_digits {f : F64} {s : List Char} (hs : ∀ c ∈ s, c = '-' ∨ c.isDigit = true) :
    ft.write f ≠ s := by
  rintro rfl
  rcases ft.fractional f with h | h
  · exact absurd (hs _ h) (by decide)
  · exact absurd (hs _ h) (by decide)

theorem posInt_digits (u : Fin (2 ^ 64)) :
    ∀ c ∈ writeNumber ft (.posInt u), c = '-' ∨ c.isDigit = true :=
  fun _ hc => .inr (isDigit_toDigits hc)

theorem negInt_digits (m : Fin (2 ^ 63)) :
    ∀ c ∈ writeNumber ft (.negInt m), c = '-' ∨ c.isDigit = true := by
  intro c hc
  rcases List.mem_cons.mp hc with rfl | hc
  · exact .inl rfl
  · exact .inr (isDigit_toDigits hc)

theorem posInt_ne_negInt (u : Fin (2 ^ 64)) (m : Fin (2 ^ 63)) :
    writeNumber ft (.posInt u) ≠ writeNumber ft (.negInt m) := by
  intro h
  have hmem : '-' ∈ writeNumber ft (.posInt u) := by
    rw [h]
    exact List.mem_cons_self ..
  exact absurd (isDigit_toDigits hmem) (by decide)

theorem writeNumber_injective : Function.Injective (writeNumber ft) := by
  intro a b h
  cases a with
  | posInt u =>
    cases b with
    | posInt v => exact congrArg _ (Fin.ext (toDigits_injective h))
    | negInt m => exact absurd h (posInt_ne_negInt ft u m)
    | float f => exact absurd h.symm (float_ne_digits ft (posInt_digits ft u))
  | negInt m =>
    cases b with
    | posInt u => exact absurd h.symm (posInt_ne_negInt ft u m)
    | negInt m' =>
      have hm := toDigits_injective (List.cons.inj h).2
      exact congrArg _ (Fin.ext (by omega))
    | float f => exact absurd h.symm (float_ne_digits ft (negInt_digits ft m))
  | float f =>
    cases b with
    | posInt u => exact absurd h (float_ne_digits ft (posInt_digits ft u))
    | negInt m => exact absurd h (float_ne_digits ft (negInt_digits ft m))
    | float g => exact congrArg _ (ft.injective h)

/-- What may follow a value: nothing, or a character no number holds. -/
def Stop (x : List Char) : Prop := ∀ c rest, x = c :: rest → isNumberChar c = false

theorem stop_cons {c : Char} {x : List Char} (h : isNumberChar c = false) : Stop (c :: x) := by
  intro d rest he
  cases he
  exact h

theorem takeWhile_number {s x : List Char} (hs : ∀ c ∈ s, isNumberChar c = true) (hx : Stop x) :
    (s ++ x).takeWhile isNumberChar = s := by
  rw [List.takeWhile_append_of_pos hs]
  cases x with
  | nil => simp
  | cons c rest => rw [List.takeWhile_cons_of_neg (by simp [hx c rest rfl]), List.append_nil]

theorem writeNumber_append_inj {a b : Number} {x y : List Char} (hx : Stop x) (hy : Stop y)
    (h : writeNumber ft a ++ x = writeNumber ft b ++ y) : a = b ∧ x = y := by
  have htake := congrArg (List.takeWhile isNumberChar) h
  rw [takeWhile_number (writeNumber_numeric ft a) hx,
    takeWhile_number (writeNumber_numeric ft b) hy] at htake
  rw [htake] at h
  exact ⟨writeNumber_injective ft htake, List.append_cancel_left h⟩

end Numbers

/-! ### Whole values -/

section Values
variable (ft : FloatText)

/-- What a value's text starts with tells its kind. -/
inductive Kind where
  | null | true | false | number | string | array | object | none
  deriving DecidableEq

def kindOf : List Char → Kind
  | [] => .none
  | c :: _ =>
    if c = 'n' then .null else if c = 't' then .true else if c = 'f' then .false
    else if c = '"' then .string else if c = '[' then .array else if c = '{' then .object
    else if isNumberChar c then .number else .none

def Json.kind : Value → Kind
  | .null => .null
  | .bool true => .true
  | .bool false => .false
  | .number _ => .number
  | .string _ => .string
  | .array _ => .array
  | .object _ => .object

theorem kindOf_number (n : Number) (x : List Char) : kindOf (writeNumber ft n ++ x) = .number := by
  cases hn : writeNumber ft n with
  | nil => exact absurd hn (writeNumber_ne_nil ft n)
  | cons c rest =>
    have hc : isNumberChar c = true := writeNumber_numeric ft n c (hn ▸ List.mem_cons_self ..)
    simp only [List.cons_append, kindOf, hc, if_true]
    split_ifs <;> simp_all +decide

theorem kindOf_write (j : Value) (x : List Char) : kindOf (write ft j ++ x) = j.kind := by
  cases j with
  | bool b => cases b <;> rfl
  | number n => exact kindOf_number ft n x
  | array items => cases items <;> rfl
  | object members => cases members <;> rfl
  | _ => rfl

/-- The text of `j` determines `j`, whatever stops it. -/
def Determined (j : Value) : Prop :=
  ∀ (j' : Value) (x y : List Char), Stop x → Stop y → write ft j ++ x = write ft j' ++ y →
    j = j' ∧ x = y

theorem stop_items (items : List Value) (x : List Char) : Stop (writeItems ft items ++ ']' :: x) := by
  cases items with
  | nil => exact stop_cons rfl
  | cons j rest => exact stop_cons rfl

theorem stop_members (members : List (String × Value)) (x : List Char) :
    Stop (writeMembers ft members ++ '}' :: x) := by
  cases members with
  | nil => exact stop_cons rfl
  | cons m rest => exact stop_cons rfl

theorem writeItems_inj {items items' : List Value} (hd : ∀ j ∈ items, Determined ft j)
    {x y : List Char} (h : writeItems ft items ++ ']' :: x = writeItems ft items' ++ ']' :: y) :
    items = items' ∧ x = y := by
  induction items generalizing items' with
  | nil =>
    cases items' with
    | nil => simpa [writeItems] using h
    | cons j' rest' => simp [writeItems] at h
  | cons j rest ih =>
    cases items' with
    | nil => simp [writeItems] at h
    | cons j' rest' =>
      simp only [writeItems, List.cons_append, List.append_assoc, List.cons.injEq, true_and] at h
      obtain ⟨rfl, hrest⟩ := hd j (List.mem_cons_self ..) j' _ _ (stop_items ft rest x)
        (stop_items ft rest' y) h
      obtain ⟨rfl, rfl⟩ := ih (fun i hi => hd i (List.mem_cons_of_mem _ hi)) hrest
      exact ⟨rfl, rfl⟩

/-- One member: its key, the colon, its value. -/
theorem writeMember_inj {m m' : String × Value} (hd : Determined ft m.2) {x y : List Char}
    (hx : Stop x) (hy : Stop y)
    (h : writeString m.1 ++ ':' :: (write ft m.2 ++ x) =
      writeString m'.1 ++ ':' :: (write ft m'.2 ++ y)) : m = m' ∧ x = y := by
  obtain ⟨hkey, hvalue⟩ := writeString_append_inj h
  obtain ⟨hj, rfl⟩ := hd m'.2 _ _ hx hy (List.cons.inj hvalue).2
  exact ⟨Prod.ext hkey hj, rfl⟩

theorem writeMembers_inj {members members' : List (String × Value)}
    (hd : ∀ m ∈ members, Determined ft m.2) {x y : List Char}
    (h : writeMembers ft members ++ '}' :: x = writeMembers ft members' ++ '}' :: y) :
    members = members' ∧ x = y := by
  induction members generalizing members' with
  | nil =>
    cases members' with
    | nil => simpa [writeMembers] using h
    | cons m' rest' => simp [writeMembers] at h
  | cons m rest ih =>
    cases members' with
    | nil => simp [writeMembers] at h
    | cons m' rest' =>
      simp only [writeMembers, List.cons_append, List.append_assoc, List.cons.injEq, true_and] at h
      obtain ⟨rfl, hrest⟩ := writeMember_inj ft (hd m (List.mem_cons_self ..))
        (stop_members ft rest x) (stop_members ft rest' y) h
      obtain ⟨rfl, rfl⟩ := ih (fun i hi => hd i (List.mem_cons_of_mem _ hi)) hrest
      exact ⟨rfl, rfl⟩

theorem Json.kind_ne_none (j : Value) : j.kind ≠ .none := by
  cases j with
  | bool b => cases b <;> decide
  | _ => intro h; cases h

/-- A value's text does not start with a closing bracket. -/
theorem write_ne_close {c : Char} (hc : kindOf [c] = .none) (j : Value) (x y : List Char) :
    write ft j ++ x ≠ c :: y := by
  intro h
  have hkind := congrArg kindOf h
  rw [kindOf_write] at hkind
  exact j.kind_ne_none (hkind.trans hc)

theorem writeString_ne_close (s : String) (x y : List Char) : writeString s ++ x ≠ '}' :: y := by
  simp [writeString]

theorem determined_array {items : List Value} (hd : ∀ j ∈ items, Determined ft j) :
    Determined ft (.array items) := by
  intro j' x y _ _ h
  have hkind := congrArg kindOf h
  rw [kindOf_write, kindOf_write] at hkind
  cases j' with
  | array items' =>
    cases items with
    | nil =>
      cases items' with
      | nil => simpa [write] using h
      | cons j' rest' =>
        simp only [write, List.cons_append, List.append_assoc, List.cons.injEq, true_and] at h
        exact absurd h.symm (write_ne_close ft rfl j' _ _)
    | cons j rest =>
      cases items' with
      | nil =>
        simp only [write, List.cons_append, List.append_assoc, List.cons.injEq, true_and] at h
        exact absurd h (write_ne_close ft rfl j _ _)
      | cons j' rest' =>
        simp only [write, List.cons_append, List.append_assoc, List.cons.injEq, true_and] at h
        obtain ⟨rfl, hrest⟩ := hd j (List.mem_cons_self ..) j' _ _ (stop_items ft rest x)
          (stop_items ft rest' y) h
        obtain ⟨rfl, rfl⟩ := writeItems_inj ft (fun i hi => hd i (List.mem_cons_of_mem _ hi)) hrest
        exact ⟨rfl, rfl⟩
  | bool b => cases b <;> cases hkind
  | _ => cases hkind

theorem determined_object {members : List (String × Value)}
    (hd : ∀ m ∈ members, Determined ft m.2) : Determined ft (.object members) := by
  intro j' x y _ _ h
  have hkind := congrArg kindOf h
  rw [kindOf_write, kindOf_write] at hkind
  cases j' with
  | object members' =>
    cases members with
    | nil =>
      cases members' with
      | nil => simpa [write] using h
      | cons m' rest' =>
        simp only [write, List.cons_append, List.append_assoc, List.cons.injEq, true_and] at h
        exact absurd h.symm (writeString_ne_close m'.1 _ _)
    | cons m rest =>
      cases members' with
      | nil =>
        simp only [write, List.cons_append, List.append_assoc, List.cons.injEq, true_and] at h
        exact absurd h (writeString_ne_close m.1 _ _)
      | cons m' rest' =>
        simp only [write, List.cons_append, List.append_assoc, List.cons.injEq, true_and] at h
        obtain ⟨rfl, hrest⟩ := writeMember_inj ft (hd m (List.mem_cons_self ..))
          (stop_members ft rest x) (stop_members ft rest' y) h
        obtain ⟨rfl, rfl⟩ := writeMembers_inj ft (fun i hi => hd i (List.mem_cons_of_mem _ hi)) hrest
        exact ⟨rfl, rfl⟩
  | bool b => cases b <;> cases hkind
  | _ => cases hkind

theorem write_determines (j : Value) : Determined ft j := by
  induction j using Json.ind with
  | array items ih => exact determined_array ft ih
  | object members ih => exact determined_object ft ih
  | null =>
    intro j' x y _ _ h
    have hkind := congrArg kindOf h
    rw [kindOf_write, kindOf_write] at hkind
    cases j' with
    | null => exact ⟨rfl, List.append_cancel_left h⟩
    | bool b => cases b <;> cases hkind
    | _ => cases hkind
  | bool b =>
    intro j' x y _ _ h
    have hkind := congrArg kindOf h
    rw [kindOf_write, kindOf_write] at hkind
    cases j' with
    | bool b' =>
      have hb : b = b' := by cases b <;> cases b' <;> first | rfl | cases hkind
      subst hb
      exact ⟨rfl, List.append_cancel_left h⟩
    | _ => cases b <;> cases hkind
  | number n =>
    intro j' x y hx hy h
    have hkind := congrArg kindOf h
    rw [kindOf_write, kindOf_write] at hkind
    cases j' with
    | number n' =>
      obtain ⟨rfl, rfl⟩ := writeNumber_append_inj ft hx hy h
      exact ⟨rfl, rfl⟩
    | bool b => cases b <;> cases hkind
    | _ => cases hkind
  | string s =>
    intro j' x y _ _ h
    have hkind := congrArg kindOf h
    rw [kindOf_write, kindOf_write] at hkind
    cases j' with
    | string s' =>
      obtain ⟨rfl, rfl⟩ := writeString_append_inj h
      exact ⟨rfl, rfl⟩
    | bool b => cases b <;> cases hkind
    | _ => cases hkind

theorem write_injective : Function.Injective (write ft) := by
  intro a b h
  have hstop : Stop [] := by intro c rest h; cases h
  exact (write_determines ft a b [] [] hstop hstop (by rw [h])).1

/-- **The canonical text determines the value up to the order of its keys.** -/
theorem canonical_inj {a b : Value} (h : canonical ft a = canonical ft b) :
    sortKeys a = sortKeys b := write_injective ft h

end Values

end Iii
