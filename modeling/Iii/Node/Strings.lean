import Iii.Node.Filter

/-! Strings by code unit and by code point.

Moving the surrogates above the rest of the basic plane (`fixed`) makes UTF-16 a code
that keeps the order of code points (`fixedCode`), as UTF-8 is one. So the two compare
alike (`compareCodePoints_text`), and one UTF-16 string starts another exactly when
the UTF-8 strings do (`hasCodePointPrefix_text`). -/
namespace Iii.Node
open Filter Sdk Lib

/-! ### Order -/

/-- A code unit in code point order. -/
def fixed (u : Nat) : Nat := if 0xD800 ≤ u then fixUp u else u

theorem char_cases (c : Char) : c.toNat < 0xD800 ∨ 0xDFFF < c.toNat ∧ c.toNat < 0x110000 := c.valid

def fixedCode : LexCode Char Nat where
  word := fun c => (utf16Char c).map fixed
  ne_nil := fun c h => utf16Code.ne_nil c (List.map_eq_nil_iff.mp h)
  lt_of_lt := by
    intro a b h x y
    have hab := toNat_lt_of_lt h
    have ha := char_cases a
    have hb := char_cases b
    unfold utf16Char
    split_ifs <;> simp only [List.map_cons, List.map_nil, List.cons_append, List.nil_append]
    · refine lex_one ?_
      simp only [fixed, fixUp]
      split_ifs <;> omega
    · refine lex_one ?_
      simp only [fixed, fixUp]
      split_ifs <;> omega
    · omega
    · refine lex_two ?_
      simp only [fixed, fixUp]
      split_ifs <;> omega

theorem encode_fixed (s : List Char) : fixedCode.encode s = (code.encode s).map fixed := by
  induction s with
  | nil => rfl
  | cons c rest ih =>
    rw [LexCode.encode_cons, code.encode_cons, List.map_append, ih]
    rfl

theorem unit_lt (s : List Char) : ∀ u ∈ code.encode s, u < 0x10000 := by
  intro u hu
  obtain ⟨c, -, hc⟩ := List.mem_flatMap.mp hu
  have hchar := char_cases c
  change u ∈ utf16Char c at hc
  unfold utf16Char at hc
  split_ifs at hc <;> simp at hc <;> omega

theorem unitLt_iff {x y : Nat} (hx : x < 0x10000) (hy : y < 0x10000) (hne : x ≠ y) :
    (unitLt x y = true ↔ fixed x < fixed y) ∧ (unitLt x y = false ↔ fixed y < fixed x) := by
  unfold unitLt fixed
  by_cases hboth : 0xD800 ≤ x ∧ 0xD800 ≤ y
  · rw [if_pos hboth, if_pos hboth.1, if_pos hboth.2, decide_eq_true_iff, decide_eq_false_iff_not]
    unfold fixUp
    split_ifs <;> omega
  · rw [if_neg hboth, decide_eq_true_iff, decide_eq_false_iff_not]
    unfold fixUp
    split_ifs <;> omega

theorem compareUnits_eq {a b : Units} (ha : ∀ u ∈ a, u < 0x10000) (hb : ∀ u ∈ b, u < 0x10000) :
    compareUnits a b = compare (a.map fixed) (b.map fixed) := by
  induction a generalizing b with
  | nil =>
    cases b with
    | nil => rfl
    | cons y b => rfl
  | cons x a ih =>
    cases b with
    | nil => rfl
    | cons y b =>
      rw [List.forall_mem_cons] at ha hb
      rw [compareUnits, List.map_cons, List.map_cons, List.compare_cons_cons, ← ih ha.2 hb.2]
      by_cases hxy : x = y
      · simp [hxy]
      · obtain ⟨hlt, hgt⟩ := unitLt_iff ha.1 hb.1 hxy
        cases h : unitLt x y with
        | true => simp [hxy, Nat.compare_eq_lt.mpr (hlt.mp h)]
        | false => simp [hxy, Nat.compare_eq_gt.mpr (hgt.mp h)]

/-- **Code unit comparison with the fix-up is UTF-8 byte order.** -/
theorem compareCodePoints_text (a b : String) :
    compareCodePoints (code.text a) (code.text b) = compare (utf8 a) (utf8 b) := by
  have hcode : compareUnits (code.text a) (code.text b) = compare (utf8 a) (utf8 b) := by
    rw [UnitCode.text, UnitCode.text, compareUnits_eq (unit_lt _) (unit_lt _), ← encode_fixed,
      ← encode_fixed]
    exact fixedCode.compare_encode utf8Code _ _
  unfold compareCodePoints
  split_ifs with h
  · rw [code.text_injective h, Std.compare_self]
  · exact hcode

/-! ### Prefixes -/

theorem last_unit {s : String} (hs : s.toList ≠ []) :
    (code.text s).getLastD 0 < 0xD800 ∨ (code.text s).getLastD 0 > 0xDBFF := by
  obtain ⟨init, c, hconcat⟩ := List.eq_nil_or_concat s.toList |>.resolve_left hs
  have hlast : ∃ w u, utf16Char c = w ++ [u] ∧ (u < 0xD800 ∨ u > 0xDBFF) := by
    have hchar := char_cases c
    unfold utf16Char
    split_ifs
    · exact ⟨[], _, rfl, by omega⟩
    · exact ⟨[_], _, rfl, by omega⟩
  obtain ⟨w, u, hw, hu⟩ := hlast
  have htext : code.text s = (code.encode init ++ w) ++ [u] := by
    rw [UnitCode.text, hconcat, List.concat_eq_append, code.encode_append, List.append_assoc, ← hw]
    exact congrArg _ (List.append_nil _)
  rwa [htext, List.getLastD_concat]

/-- **A prefix by code units is a prefix by UTF-8 bytes.** -/
theorem hasCodePointPrefix_text (s p : String) :
    hasCodePointPrefix (code.text s) (code.text p) = startsWith s p := by
  have hunits : (code.text p).isPrefixOf (code.text s) = true ↔ p.toList <+: s.toList := by
    rw [List.isPrefixOf_iff_prefix]
    exact utf16Code.encode_isPrefix_iff
  have hbytes : startsWith s p = true ↔ p.toList <+: s.toList := by
    rw [startsWith, List.isPrefixOf_iff_prefix]
    exact utf8Code.encode_isPrefix_iff
  unfold hasCodePointPrefix
  by_cases h : (code.text p).isPrefixOf (code.text s) = true
  · rw [hbytes.mpr (hunits.mp h), h]
    by_cases hp : p.toList = []
    · simp [UnitCode.text, hp, UnitCode.encode]
    · simp only [Bool.not_true, Bool.false_eq_true, if_false]
      rw [if_pos (last_unit hp), ite_self]
  · rw [Bool.eq_false_iff.mpr h, Bool.eq_false_iff.mpr fun hs => h (hunits.mpr (hbytes.mp hs))]
    rfl

/-! ### Surrogates -/

theorem wellFormed_text (s : String) : wellFormed (code.text s) = true := by
  unfold UnitCode.text
  induction s.toList with
  | nil => rfl
  | cons c rest ih =>
    have hchar := char_cases c
    rw [code.encode_cons]
    show wellFormed (utf16Char c ++ _) = true
    unfold utf16Char
    split_ifs
    · rw [List.singleton_append, wellFormed.eq_def]
      simp only
      rw [if_pos (by omega), ih]
    · rw [List.cons_append, List.singleton_append, wellFormed.eq_def]
      simp only
      rw [if_neg (by omega), ih]
      simp
      omega

end Iii.Node
