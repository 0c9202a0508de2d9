import Iii.Json.Text

/-! JSON texts.

`Spells text j` is the grammar of JSON read as a relation: `text` is a JSON text of the
value `j`, with any white space, any escapes and its members in the order written.
Surrogate escapes come in pairs, so a string denotes characters. Nothing here decodes:
a decoder is what gives `j` back for every text of it. -/
namespace Iii

def isSpace (c : Char) : Bool := c = ' ' || c = '\t' || c = '\n' || c = '\r'

def Space (w : List Char) : Prop := ∀ c ∈ w, isSpace c = true

/-- The characters a number is spelled with. -/
def isNumeric (c : Char) : Bool := isNumberChar c || c = 'E'

/-- What a one-letter escape stands for. -/
def escapeOf (e : Char) : Option Char :=
  if e = '"' then some '"'
  else if e = '\\' then some '\\'
  else if e = '/' then some '/'
  else if e = 'b' then some (Char.ofNat 8)
  else if e = 'f' then some (Char.ofNat 12)
  else if e = 'n' then some '\n'
  else if e = 'r' then some '\r'
  else if e = 't' then some '\t'
  else none

/-- A hexadecimal digit, in either case. -/
def hexOf (u : Nat) : Option Nat :=
  if 48 ≤ u ∧ u ≤ 57 then some (u - 48)
  else if 97 ≤ u ∧ u ≤ 102 then some (u - 87)
  else if 65 ≤ u ∧ u ≤ 70 then some (u - 55)
  else none

/-- Four hexadecimal digits. -/
def hex4 (a b c d : Nat) : Option Nat := do
  let a ← hexOf a
  let b ← hexOf b
  let c ← hexOf c
  let d ← hexOf d
  return ((a * 16 + b) * 16 + c) * 16 + d

/-- `\uXXXX`. -/
structure UnicodeEscape (t : List Char) (n : Nat) : Prop where
  shape : ∃ a b c d : Char, t = ['\\', 'u', a, b, c, d] ∧
    hex4 a.toNat b.toNat c.toNat d.toNat = some n

/-- One character inside a string. -/
inductive SpellsChar : List Char → Char → Prop
  | plain (c : Char) (hq : c ≠ '"') (hs : c ≠ '\\') (hc : 32 ≤ c.toNat) : SpellsChar [c] c
  | escape (e c : Char) (h : escapeOf e = some c) : SpellsChar ['\\', e] c
  | unicode (t : List Char) (n : Nat) (ht : UnicodeEscape t n) (hn : n < 0xD800 ∨ 0xDFFF < n) :
      SpellsChar t (Char.ofNat n)
  | pair (t t' : List Char) (n n' : Nat) (ht : UnicodeEscape t n) (ht' : UnicodeEscape t' n')
      (hn : 0xD800 ≤ n ∧ n ≤ 0xDBFF) (hn' : 0xDC00 ≤ n' ∧ n' ≤ 0xDFFF) :
      SpellsChar (t ++ t') (Char.ofNat (0x10000 + (n - 0xD800) * 1024 + (n' - 0xDC00)))

/-- What stands between the quotes. -/
inductive SpellsChars : List Char → List Char → Prop
  | nil : SpellsChars [] []
  | cons {t ts : List Char} {c : Char} {cs : List Char} (h : SpellsChar t c)
      (hs : SpellsChars ts cs) : SpellsChars (t ++ ts) (c :: cs)

/-- A quoted string. -/
inductive SpellsString : List Char → String → Prop
  | quoted {t : List Char} {s : String} (h : SpellsChars t s.toList) :
      SpellsString ('"' :: (t ++ ['"'])) s

mutual
inductive Spells : List Char → Json String NumText → Prop
  | null : Spells ['n', 'u', 'l', 'l'] .null
  | true : Spells ['t', 'r', 'u', 'e'] (.bool true)
  | false : Spells ['f', 'a', 'l', 's', 'e'] (.bool false)
  | number (n : NumText) (h : ∀ c ∈ n.text.toList, isNumeric c = true) :
      Spells n.text.toList (.number n)
  | string {t : List Char} {s : String} (h : SpellsString t s) : Spells t (.string s)
  | array {t : List Char} {items : List (Json String NumText)} (h : SpellsItems t items) :
      Spells ('[' :: (t ++ [']'])) (.array items)
  | object {t : List Char} {members : List (String × Json String NumText)}
      (h : SpellsMembers t members) : Spells ('{' :: (t ++ ['}'])) (.object members)
  | space {w t w' : List Char} {j : Json String NumText} (hw : Space w) (hw' : Space w')
      (h : Spells t j) : Spells (w ++ (t ++ w')) j
inductive SpellsItems : List Char → List (Json String NumText) → Prop
  | nil {w : List Char} (hw : Space w) : SpellsItems w []
  | one {t : List Char} {j : Json String NumText} (h : Spells t j) : SpellsItems t [j]
  | cons {t ts : List Char} {j k : Json String NumText} {rest : List (Json String NumText)}
      (h : Spells t j) (hs : SpellsItems ts (k :: rest)) :
      SpellsItems (t ++ ',' :: ts) (j :: k :: rest)
inductive SpellsMembers : List Char → List (String × Json String NumText) → Prop
  | nil {w : List Char} (hw : Space w) : SpellsMembers w []
  | one {t : List Char} {m : String × Json String NumText} (h : SpellsMember t m) :
      SpellsMembers t [m]
  | cons {t ts : List Char} {m n : String × Json String NumText}
      {rest : List (String × Json String NumText)} (h : SpellsMember t m)
      (hs : SpellsMembers ts (n :: rest)) : SpellsMembers (t ++ ',' :: ts) (m :: n :: rest)
inductive SpellsMember : List Char → String × Json String NumText → Prop
  | member {w k w' t : List Char} {key : String} {j : Json String NumText} (hw : Space w)
      (hk : SpellsString k key) (hw' : Space w') (h : Spells t j) :
      SpellsMember (w ++ (k ++ (w' ++ ':' :: t))) (key, j)
end

end Iii
