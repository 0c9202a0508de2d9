import Iii.Filter.Path

/-! Paths as the SDKs parse them.

The Go, Node and browser evaluators hold a string as a list of code units and
scan it unit by unit (`parsePath` in `path.go` and `path.ts`). Every encoding they
use spells an ASCII character as its own code and everything else with larger
units (`UnitCode`), so a scan for `.` and `\` on units finds what the engine's scan
finds on characters (`parsePath_text`). What a canonical decimal selects is each
language's own (`PathRules`). -/
namespace Iii.Sdk
open Filter

/-! ### Strings -/

/-- A string of the host language: its code units. -/
abbrev Units := List Nat

/-- How the host language spells characters. -/
structure UnitCode where
  word : Char → Units
  ascii : ∀ c, c.toNat < 128 → word c = [c.toNat]
  wide : ∀ c, 128 ≤ c.toNat → ∀ u ∈ word c, 128 ≤ u
  ne_nil : ∀ c, word c ≠ []
  injective : Function.Injective fun s : List Char => s.flatMap word

namespace UnitCode
variable (C : UnitCode)

def encode (s : List Char) : Units := s.flatMap C.word

def text (s : String) : Units := C.encode s.toList

theorem text_injective : Function.Injective C.text := fun _ _ h =>
  String.toList_inj.mp (C.injective h)

theorem text_inj {a b : String} : C.text a = C.text b ↔ a = b := C.text_injective.eq_iff

theorem encode_cons (c : Char) (s : List Char) : C.encode (c :: s) = C.word c ++ C.encode s := by
  simp [encode]

theorem encode_append (s t : List Char) : C.encode (s ++ t) = C.encode s ++ C.encode t := by
  simp [encode]

theorem encode_eq_nil {s : List Char} : C.encode s = [] ↔ s = [] := by
  cases s with
  | nil => simp [encode]
  | cons c rest => simp [encode_cons, C.ne_nil]

theorem text_ofList (s : List Char) : C.text (String.ofList s) = C.encode s := by
  rw [text, String.toList_ofList]

/-- A character is spelled by its own code, or by units above every ASCII one. -/
theorem word_cases (c : Char) : C.word c = [c.toNat] ∧ c.toNat < 128 ∨
    ∃ u w, C.word c = u :: w ∧ 128 ≤ u ∧ (∀ x ∈ w, 128 ≤ x) ∧ 128 ≤ c.toNat := by
  by_cases h : c.toNat < 128
  · exact .inl ⟨C.ascii c h, h⟩
  · have hwide := C.wide c (by omega)
    cases hw : C.word c with
    | nil => exact absurd hw (C.ne_nil c)
    | cons u w =>
      rw [hw, List.forall_mem_cons] at hwide
      exact .inr ⟨u, w, rfl, hwide.1, hwide.2, by omega⟩

end UnitCode

/-! ### Parsing -/

structure Error where
  code : ErrorCode
  message : Units
  deriving DecidableEq

structure Segment where
  key : Units
  index : Option Nat
  deriving DecidableEq

structure Path where
  root : Root
  segments : List Segment
  deriving DecidableEq

/-- What the languages do not share: the index a segment selects, and how an error
message shows one unit. -/
structure PathRules where
  canonicalIndex : Units → Option Nat
  spell : Nat → Units

section Parse
variable (C : UnitCode) (R : PathRules)

def invalid (message : Units) : Error := ⟨.invalidFilter, message⟩

def emptySegment (raw : Units) : Error :=
  if raw = [] then invalid (C.text "empty path")
  else invalid (C.text "path `" ++ raw ++ C.text "`: empty segment")

/-- The loop over the units of a path. -/
def splitPath (raw : Units) : Units → (parts : List Units) → (current : Units) →
    Except Error (List Units)
  | [], parts, current =>
    if current = [] then .error (emptySegment C raw) else .ok (parts ++ [current])
  | c :: rest, parts, current =>
    if c = 92 then
      match rest with
      | [] => .error (invalid (C.text "path `" ++ raw ++ C.text "`: dangling `\\` at the end"))
      | next :: rest =>
        if next = 46 ∨ next = 92 then splitPath raw rest parts (current ++ [next])
        else .error (invalid (C.text "path `" ++ raw ++ C.text "`: invalid escape `\\" ++ R.spell next
          ++ C.text "` (only `\\.` and `\\\\` are allowed)"))
    else if c = 46 then
      if current = [] then .error (emptySegment C raw)
      else splitPath raw rest (parts ++ [current]) []
    else splitPath raw rest parts (current ++ [c])

def rootOf (first : Units) : Option Root :=
  if first = C.text "input" then some .input
  else if first = C.text "output" then some .output
  else if first = C.text "error" then some .error
  else if first = C.text "caller" then some .caller
  else if first = C.text "metadata" then some .metadata
  else if first = C.text "@" then some .element
  else none

/-- The segment a root is named by. -/
def rootName : Root → String
  | .input => "input"
  | .output => "output"
  | .error => "error"
  | .caller => "caller"
  | .metadata => "metadata"
  | .element => "@"

/-- Which root a first segment names, inside `$any` or outside. -/
def parseRoot (raw first : Units) (inAny : Bool) : Except Error Root :=
  let atElement := invalid (C.text "path `" ++ raw
    ++ C.text "`: inside `$any` paths start at `@`, the current element")
  match rootOf C first with
  | none =>
    if inAny then .error atElement
    else .error (invalid (C.text "path `" ++ raw ++ C.text "`: unknown root `" ++ first
      ++ C.text "` (expected input, output, error, caller or metadata)"))
  | some .element =>
    if inAny then .ok .element
    else .error (invalid (C.text "path `" ++ raw ++ C.text "`: `@` paths are only allowed inside `$any`"))
  | some root => if inAny then .error atElement else .ok root

def parsePath (raw : Units) (inAny : Bool) : Except Error Path := do
  let parts ← splitPath C R raw raw [] []
  let root ← parseRoot C raw (parts.headD []) inAny
  if parts.tail.length > maxPathSegments then
    throw (invalid (C.text "path `" ++ raw ++ C.text "`: " ++ C.text (toString parts.tail.length)
      ++ C.text " segments after the root (limit " ++ C.text (toString maxPathSegments) ++ C.text ")"))
  return ⟨root, parts.tail.map fun key => ⟨key, R.canonicalIndex key⟩⟩

/-! ### The scan on units is the scan on characters -/

theorem splitPath_dot (raw rest : Units) (parts : List Units) (current : Units) :
    splitPath C R raw (46 :: rest) parts current =
      if current = [] then .error (emptySegment C raw)
      else splitPath C R raw rest (parts ++ [current]) [] := by
  cases rest <;> rfl

theorem splitPath_other (raw rest : Units) (parts : List Units) (current : Units) {c : Nat}
    (hc : c ≠ 92) (hd : c ≠ 46) :
    splitPath C R raw (c :: rest) parts current = splitPath C R raw rest parts (current ++ [c]) := by
  cases rest <;> exact (if_neg hc).trans (if_neg hd)

theorem splitPath_escape (raw rest : Units) (parts : List Units) (current : Units) (next : Nat) :
    splitPath C R raw (92 :: next :: rest) parts current =
      if next = 46 ∨ next = 92 then splitPath C R raw rest parts (current ++ [next])
      else .error (invalid (C.text "path `" ++ raw ++ C.text "`: invalid escape `\\" ++ R.spell next
        ++ C.text "` (only `\\.` and `\\\\` are allowed)")) := rfl

/-- Units above ASCII go into the current segment. -/
theorem splitPath_wide (raw w rest : Units) (parts : List Units) (current : Units)
    (hw : ∀ u ∈ w, 128 ≤ u) :
    splitPath C R raw (w ++ rest) parts current = splitPath C R raw rest parts (current ++ w) := by
  induction w generalizing current with
  | nil => simp
  | cons u w ih =>
    rw [List.forall_mem_cons] at hw
    rw [List.cons_append, splitPath_other C R _ _ _ _ (by omega) (by omega), ih _ hw.2]
    simp

/-- A character that is neither `\` nor `.` goes into the current segment. -/
theorem splitPath_char (raw rest : Units) (parts : List Units) (current : List Char) {c : Char}
    (hc : c ≠ '\\') (hd : c ≠ '.') :
    splitPath C R raw (C.word c ++ rest) parts (C.encode current) =
      splitPath C R raw rest parts (C.encode (current ++ [c])) := by
  have henc : C.encode (current ++ [c]) = C.encode current ++ C.word c := by
    rw [C.encode_append, C.encode_cons]
    simp [UnitCode.encode]
  rw [henc]
  rcases C.word_cases c with ⟨hw, -⟩ | ⟨u, w, hw, hu, hws, -⟩
  · have hc' : c.toNat ≠ 92 := fun h => hc (Char.toNat_inj.mp h)
    have hd' : c.toNat ≠ 46 := fun h => hd (Char.toNat_inj.mp h)
    rw [hw, List.singleton_append, splitPath_other C R _ _ _ _ hc' hd']
  · refine splitPath_wide C R raw _ rest parts _ ?_
    rw [hw, List.forall_mem_cons]
    exact ⟨hu, hws⟩

/-- How the result of the scan on units stands to that on characters. -/
def SameSplit (units : Except Error (List Units)) (chars : Except FilterError (List String)) : Prop :=
  match chars with
  | .ok parts => units = .ok (parts.map C.text)
  | .error _ => ∃ e, units = .error e

theorem splitPath_text (raw : Units) (rawText : String) (s : List Char) (parts : List String)
    (current : List Char) :
    SameSplit C (splitPath C R raw (C.encode s) (parts.map C.text) (C.encode current))
      (Filter.splitPath rawText s parts current) := by
  have hslash : C.word '\\' = [92] := C.ascii _ (by decide)
  have hdot : C.word '.' = [46] := C.ascii _ (by decide)
  fun_induction Filter.splitPath rawText s parts current with
  | case1 parts => exact ⟨_, rfl⟩
  | case2 parts current h =>
    have hne : C.encode current ≠ [] := fun e => h (C.encode_eq_nil.mp e)
    show SameSplit C (if C.encode current = [] then _ else _) _
    rw [if_neg hne]
    simp [SameSplit, C.text_ofList]
  | case3 =>
    rw [C.encode_cons, hslash]
    exact ⟨_, rfl⟩
  | case4 c rest parts current hc ih =>
    have hword : C.word c = [c.toNat] := by
      rcases hc with rfl | rfl
      · exact hdot
      · exact hslash
    have hunit : c.toNat = 46 ∨ c.toNat = 92 := by
      rcases hc with rfl | rfl
      · exact .inl rfl
      · exact .inr rfl
    have henc : C.encode (current ++ [c]) = C.encode current ++ [c.toNat] := by
      rw [C.encode_append, C.encode_cons, hword]
      simp [UnitCode.encode]
    rw [C.encode_cons, C.encode_cons, hslash, hword, List.singleton_append, List.singleton_append,
      splitPath_escape, if_pos hunit, ← henc]
    exact ih
  | case5 c rest parts current hc =>
    rw [C.encode_cons, C.encode_cons, hslash, List.singleton_append]
    rcases C.word_cases c with ⟨hw, -⟩ | ⟨u, w, hw, hu, -, -⟩
    · have hunit : ¬ (c.toNat = 46 ∨ c.toNat = 92) := by
        rintro (h | h)
        · exact hc (.inl (Char.toNat_inj.mp h))
        · exact hc (.inr (Char.toNat_inj.mp h))
      rw [hw, List.singleton_append, splitPath_escape, if_neg hunit]
      exact ⟨_, rfl⟩
    · rw [hw, List.cons_append, splitPath_escape, if_neg (by omega)]
      exact ⟨_, rfl⟩
  | case6 rest parts =>
    rw [C.encode_cons, hdot, List.singleton_append, splitPath_dot, if_pos (C.encode_eq_nil.mpr rfl)]
    exact ⟨_, rfl⟩
  | case7 rest parts current h _ _ ih =>
    have hne : C.encode current ≠ [] := fun e => h (C.encode_eq_nil.mp e)
    rw [C.encode_cons, hdot, List.singleton_append, splitPath_dot, if_neg hne]
    rw [List.map_append, List.map_singleton, C.text_ofList] at ih
    exact ih
  | case8 c rest parts current hend hesc hd ih =>
    have hc : c ≠ '\\' := by
      rintro rfl
      cases rest with
      | nil => exact hend rfl rfl
      | cons d rest => exact hesc d rest rfl rfl
    rw [C.encode_cons, splitPath_char C R _ _ _ _ hc hd]
    exact ih

theorem rootOf_text (first : String) : rootOf C (C.text first) = Root.fromSegment first := by
  simp only [rootOf, Root.fromSegment, C.text_inj]

theorem parseRoot_text (raw : Units) (rawText first : String) (inAny : Bool) :
    (∀ r, Filter.parseRoot rawText first inAny = .ok r → parseRoot C raw (C.text first) inAny = .ok r) ∧
    (∀ e, Filter.parseRoot rawText first inAny = .error e →
      ∃ e', parseRoot C raw (C.text first) inAny = .error e') := by
  unfold parseRoot Filter.parseRoot
  rw [rootOf_text]
  cases Root.fromSegment first with
  | none => cases inAny <;> simp
  | some root => cases root <;> cases inAny <;> simp

/-- A path of the engine in the units of the host. -/
def hostPath (p : Filter.Path) : Path :=
  ⟨p.root, p.segments.map fun s => ⟨C.text s.key, R.canonicalIndex (C.text s.key)⟩⟩

/-- **The SDKs parse the paths the engine parses.** -/
theorem parsePath_text (raw : String) (inAny : Bool) :
    (∀ p, Filter.Path.parse raw inAny = .ok p →
      parsePath C R (C.text raw) inAny = .ok (hostPath C R p)) ∧
    (∀ e, Filter.Path.parse raw inAny = .error e →
      ∃ e', parsePath C R (C.text raw) inAny = .error e') := by
  have hsplit := splitPath_text C R (C.text raw) raw raw.toList [] []
  unfold parsePath Filter.Path.parse
  cases hs : Filter.splitPath raw raw.toList [] [] with
  | error e =>
    rw [hs] at hsplit
    obtain ⟨e', he'⟩ := hsplit
    have he' : splitPath C R (C.text raw) (C.text raw) [] [] = .error e' := he'
    rw [he']
    simp [bind, Except.bind]
  | ok parts =>
    rw [hs] at hsplit
    have hsplit : splitPath C R (C.text raw) (C.text raw) [] [] = .ok (parts.map C.text) := hsplit
    rw [hsplit]
    have hhead : (parts.map C.text).headD [] = C.text (parts.headD "") := by cases parts <;> rfl
    obtain ⟨hok, herr⟩ := parseRoot_text C (C.text raw) raw (parts.headD "") inAny
    cases hr : Filter.parseRoot raw (parts.headD "") inAny with
    | error e =>
      obtain ⟨e', he'⟩ := herr e hr
      simp only [bind, Except.bind, hhead, he', hr]
      simp
    | ok root =>
      have hlen : (parts.map C.text).tail.length = (parts.tail.map fun key =>
          (⟨key, Filter.canonicalIndex key⟩ : Filter.Segment)).length := by simp
      simp only [bind, Except.bind, hhead, hok root hr, hr, hlen]
      split
      · simp [throw, throwThe, MonadExceptOf.throw]
      · simp [pure, Except.pure, hostPath, List.map_tail, Function.comp_def]

end Parse

/-! ### Decimals -/

/-- The unit is an ASCII digit. -/
def isDigit (u : Nat) : Bool := 48 ≤ u && u ≤ 57

/-- `0` or `[1-9][0-9]*`, on units. -/
def isDecimal (s : Units) : Bool :=
  s ≠ [] && s.all isDigit && !(s.head? = some 48 && s.length > 1)

/-- The number digits spell. -/
def decimal (s : Units) : Nat := s.foldl (fun n u => 10 * n + (u - 48)) 0

theorem isDecimal_iff (s : Units) : isDecimal s = true ↔
    s ≠ [] ∧ s.all isDigit = true ∧ ¬ (s.head? = some 48 ∧ s.length > 1) := by
  simp only [isDecimal, Bool.and_eq_true, Bool.not_eq_true', decide_eq_true_iff, Bool.and_eq_false_iff,
    decide_eq_false_iff_not, not_and_or, and_assoc]

theorem isDigit_char (c : Char) : isDigit c.toNat = c.isDigit := by
  rw [isDigit, Bool.eq_iff_iff]
  simp only [Char.isDigit, Bool.and_eq_true, decide_eq_true_iff, UInt32.le_iff_toNat_le]
  exact Iff.rfl

section Decimal
variable (C : UnitCode)

theorem all_isDigit_encode (s : List Char) : (C.encode s).all isDigit = s.all Char.isDigit := by
  induction s with
  | nil => rfl
  | cons c rest ih =>
    rw [C.encode_cons, List.all_append, List.all_cons, ih]
    congr 1
    rcases C.word_cases c with ⟨hw, -⟩ | ⟨u, w, hw, hu, -, hc⟩
    · simp [hw, isDigit_char]
    · rw [← isDigit_char, hw, List.all_cons]
      have hunit : isDigit u = false := by
        simp [isDigit]
        omega
      have hchar : isDigit c.toNat = false := by
        simp [isDigit]
        omega
      rw [hunit, hchar, Bool.false_and]

/-- Digits are spelled one unit each. -/
theorem encode_digits {s : List Char} (h : s.all Char.isDigit = true) :
    C.encode s = s.map Char.toNat := by
  induction s with
  | nil => rfl
  | cons c rest ih =>
    rw [List.all_cons, Bool.and_eq_true] at h
    have hdigit := h.1
    rw [← isDigit_char] at hdigit
    simp only [isDigit, Bool.and_eq_true, decide_eq_true_iff] at hdigit
    rw [C.encode_cons, ih h.2, C.ascii c (by omega)]
    rfl

theorem decimal_digits (s : List Char) : decimal (s.map Char.toNat) = Nat.ofDigitChars 10 s 0 := by
  rw [decimal, List.foldl_map]
  rfl

theorem isCanonical_iff (s : List Char) : Filter.isCanonical s = true ↔
    s ≠ [] ∧ s.all Char.isDigit = true ∧ ¬ (s.head? = some '0' ∧ 1 < s.length) := by
  have hdigit : ∀ c : Char, c.isDigit = true ∧ c ≠ '0' ↔ '1' ≤ c ∧ c ≤ '9' := by
    intro c
    have hne : c ≠ '0' ↔ c.toNat ≠ 48 := by
      rw [Ne, ← Char.toNat_inj]
      rfl
    rw [← isDigit_char, isDigit, hne, Bool.and_eq_true, decide_eq_true_iff, decide_eq_true_iff]
    show _ ↔ 49 ≤ c.toNat ∧ c.toNat ≤ 57
    omega
  unfold Filter.isCanonical
  split
  · simp
  · rename_i c rest hzero
    rw [Bool.and_assoc, ← Bool.and_assoc, Bool.and_eq_true, Bool.and_eq_true, decide_eq_true_iff,
      decide_eq_true_iff, ← hdigit c]
    cases rest with
    | nil =>
      have hc : c ≠ '0' := fun h => hzero h rfl
      simp [hc]
    | cons d rest =>
      simp
      exact and_right_comm
  · simp

theorem isDecimal_encode (s : List Char) : isDecimal (C.encode s) = true ↔
    s ≠ [] ∧ s.all Char.isDigit = true ∧ ¬ (s.head? = some '0' ∧ 1 < s.length) := by
  by_cases hdigits : s.all Char.isDigit = true
  · rw [isDecimal, all_isDigit_encode, hdigits, encode_digits C hdigits]
    cases s with
    | nil => simp
    | cons c rest =>
      have hzero : c.toNat = 48 ↔ c = '0' := by
        rw [← Char.toNat_inj]
        rfl
      simp [hzero, imp_iff_not_or]
  · simp [isDecimal, all_isDigit_encode, hdigits]

/-- The index of a segment, read off its units. -/
theorem canonicalIndex_text (s : String) : Filter.canonicalIndex s =
    if isDecimal (C.text s) = true ∧ decimal (C.text s) < 2 ^ 64 then some (decimal (C.text s))
    else none := by
  unfold Filter.canonicalIndex
  by_cases h : isDecimal (C.text s) = true
  · have hchars := (isDecimal_encode C _).mp h
    have hdecimal : decimal (C.text s) = Nat.ofDigitChars 10 s.toList 0 := by
      rw [UnitCode.text, encode_digits C hchars.2.1, decimal_digits]
    rw [if_pos ((isCanonical_iff _).mpr hchars), hdecimal]
    simp [h]
  · have hchars : ¬ _ := fun hc => h ((isDecimal_encode C _).mpr ((isCanonical_iff _).mp hc))
    rw [if_neg hchars, if_neg fun hc => h hc.1]

/-- Two indices that agree on the positions of a list select the same item. -/
theorem bind_getElem?_congr {α β : Type} (f : α → β) {a b : Option Nat} {items : List α}
    (h : ∀ i < items.length, a = some i ↔ b = some i) :
    (a.bind fun i => (items.map f)[i]?) = (b.bind fun i => items[i]?).map f := by
  have hitem : (a.bind fun i => items[i]?) = b.bind fun i => items[i]? := by
    apply Option.ext
    intro x
    simp only [Option.bind_eq_some_iff]
    refine exists_congr fun i => and_congr_left fun hx => h i ?_
    exact (List.getElem?_eq_some_iff.mp hx).1
  rw [← hitem]
  cases a with
  | none => rfl
  | some i => exact List.getElem?_map

end Decimal

end Iii.Sdk
