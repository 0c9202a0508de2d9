import Iii.Sdk.Compile

/-! The Go SDK's filter (`sdk/packages/go/iii/filter`): values, operators, paths.

A Go string is its UTF-8 bytes. A number of a filter stays `json.Number` until an
operator takes its `float64`; a document may hold either, and `view` turns the
number a path reaches into a `float64`. Documents here are JSON-shaped: `nil`, `bool`,
`string`, `float64`, `json.Number`, `[]any` and `map[string]any`. -/
namespace Iii.Go
open Filter Sdk

/-! ### Strings and numbers -/

theorem utf8Char_ne_nil (c : Char) : utf8Char c ≠ [] := utf8Code.ne_nil c

/-- Bytes of a Go string. -/
def code : UnitCode where
  word := utf8Char
  ascii := fun c h => by simp [utf8Char, h]
  wide := fun c h u hu => by
    simp only [utf8Char] at hu
    split_ifs at hu <;> simp at hu <;> omega
  ne_nil := utf8Char_ne_nil
  injective := utf8Code.encode_injective

inductive Num where
  | float64 (f : F64)
  /-- A `json.Number`. -/
  | number (t : NumText)

/-- `strconv.ParseFloat` of a `json.Number`; a `float64` is its own. -/
def Num.double : Num → F64
  | .float64 f => f
  | .number t => t.double

abbrev GoValue := Json Units Num

/-! ### Host values -/

/-- `view` of a JSON-shaped value. -/
def view : GoValue → GoValue × Bool
  | .number n => (.number (.float64 n.double), true)
  | v => (v, true)

/-- An array element: what JSON leaves out is null. -/
def viewElement (v : GoValue) : GoValue := if (view v).2 then (view v).1 else .null

/-- Numbers become `float64`. -/
def literal (v : GoValue) : GoValue := v.map id fun n => .float64 n.double

mutual
/-- Deep equality of a host value in JSON form and a literal. -/
def jsonEqual (host : GoValue) : (lit : GoValue) → Bool
  | .null => match host with
    | .null => true
    | _ => false
  | .bool l => match host with
    | .bool h => h = l
    | _ => false
  | .string l => match host with
    | .string h => h = l
    | _ => false
  | .number (.float64 l) => match host with
    | .number (.float64 h) => h.value = l.value
    | _ => false
  | .number (.number _) => false
  | .array l => match host with
    | .array h => h.length = l.length && jsonEqualItems h l
    | _ => false
  | .object l => match host with
    | .object h => jsonEqualMembers h l && (h.filter fun m => (view m.2).2).length = l.length
    | _ => false
def jsonEqualItems : List GoValue → (lit : List GoValue) → Bool
  | h :: hs, l :: ls => jsonEqual (viewElement h) l && jsonEqualItems hs ls
  | _, _ => true
/-- Every member of the literal has an equal one in the host. -/
def jsonEqualMembers (h : List (Units × GoValue)) : (lit : List (Units × GoValue)) → Bool
  | [] => true
  | (k, want) :: rest =>
    (match Json.get? h k with
      | some member => (view member).2 && jsonEqual (view member).1 want
      | none => false) && jsonEqualMembers h rest
end

/-! ### Documents and paths -/

/-- A `Doc`: the value of each root, if it is present. -/
abbrev GoDoc := Root → Option GoValue

/-- A root as an evaluation reads it. -/
def load (doc : GoDoc) (r : Root) : GoValue × Bool :=
  match doc r with
  | some raw => view raw
  | none => (.null, false)

/-- `evalDoc`: the roots read so far, in JSON form. -/
structure EvalDoc where
  doc : GoDoc
  loaded : List Root := []
  vals : Root → GoValue := fun _ => .null
  present : Root → Bool := fun _ => false

/-- `evalDoc.root`. -/
def EvalDoc.root (d : EvalDoc) (r : Root) : (GoValue × Bool) × EvalDoc :=
  if r ∈ d.loaded then ((d.vals r, d.present r), d)
  else
    let v := load d.doc r
    (v, {d with loaded := r :: d.loaded,
                vals := fun x => if x = r then v.1 else d.vals x,
                present := fun x => if x = r then v.2 else d.present x})

/-- What is remembered is what the document holds. -/
def EvalDoc.Remembers (d : EvalDoc) : Prop :=
  ∀ r ∈ d.loaded, (d.vals r, d.present r) = load d.doc r

/-- Reading a root answers as the document does, and forgets nothing: an evaluation
can be read without the memory. -/
theorem EvalDoc.root_eq {d : EvalDoc} (h : d.Remembers) (r : Root) :
    (d.root r).1 = load d.doc r ∧ (d.root r).2.doc = d.doc ∧ (d.root r).2.Remembers := by
  unfold EvalDoc.root
  split_ifs with hr
  · exact ⟨h r hr, rfl, h⟩
  · refine ⟨rfl, rfl, ?_⟩
    intro x hx
    by_cases hxr : x = r
    · simp [hxr]
    · have hmem : x ∈ d.loaded := by simpa [hxr] using hx
      simpa [hxr] using h x hmem

/-- The loop of `path.resolve`. -/
def walk : List Sdk.Segment → GoValue × Bool → GoValue × Bool
  | [], cur => cur
  | seg :: rest, (cur, ok) =>
    if !ok then (.null, false)
    else match cur with
      | .object x =>
        match Json.get? x seg.key with
        | some member => walk rest (view member)
        | none => (.null, false)
      | .array x =>
        match seg.index.bind (fun i => x[i]?) with
        | some e => walk rest (viewElement e, true)
        | none => (.null, false)
      | _ => (.null, false)

def resolve (p : Sdk.Path) (d : GoDoc) (el : GoValue) : GoValue × Bool :=
  walk p.segments (if p.root = .element then (el, true) else load d p.root)

/-! ### Operators -/

/-- `checkNumber`: integers are compared exactly, any other number by its double. -/
def numberOk : NumText → Bool
  | .integer neg n _ _ => (if neg then n ≤ 2 ^ 63 else n < 2 ^ 63) && n ≤ maxSafeInteger
  | .other _ d => d.value.natAbs ≤ maxSafeInteger * 2 ^ 1074

def checkNumber (path name : Units) (t : NumText) : Except Error Unit :=
  if numberOk t then .ok ()
  else .error (invalid (code.text "`" ++ path ++ code.text "`: `" ++ name
    ++ code.text "` holds the number " ++ code.text t.text ++ code.text ", outside ±2^53"))

def nestsTooDeep (path name : Units) : Error :=
  invalid (code.text "`" ++ path ++ code.text "`: `" ++ name ++ code.text "` nests more than "
    ++ code.text (toString maxLiteralDepth) ++ code.text " arrays / objects")

/-- The byte order of keys (`sort.Strings`). -/
def keyLe {α : Type} (a b : Units × α) : Prop := a.1 ≤ b.1

instance {α : Type} : DecidableRel (keyLe (α := α)) := fun a b =>
  inferInstanceAs (Decidable (a.1 ≤ b.1))

mutual
/-- `depth` is the nesting of the containers holding the value. -/
def checkLiteral (path name : Units) (depth : Nat) : GoValue → Except Error Unit
  | .number (.number t) => checkNumber path name t
  | .array x =>
    if depth + 1 > maxLiteralDepth then .error (nestsTooDeep path name)
    else checkItems path name (depth + 1) x
  | .object x =>
    if depth + 1 > maxLiteralDepth then .error (nestsTooDeep path name)
    -- the members in key order: the first failing key is the error reported
    else ((checkMembers path name (depth + 1) x).insertionSort keyLe).forM (·.2)
  | _ => .ok ()
def checkItems (path name : Units) (depth : Nat) : List GoValue → Except Error Unit
  | [] => .ok ()
  | j :: rest => do
    checkLiteral path name depth j
    checkItems path name depth rest
def checkMembers (path name : Units) (depth : Nat) :
    List (Units × GoValue) → List (Units × Except Error Unit)
  | [] => []
  | m :: rest => (m.1, checkLiteral path name depth m.2) :: checkMembers path name depth rest
end

def wrong (path name : Units) (expected : String) (operand : GoValue) : Error :=
  invalid (code.text "`" ++ path ++ code.text "`: `" ++ name ++ code.text "` takes "
    ++ code.text expected ++ code.text ", found " ++ code.text (kind operand))

/-- The items of `$in` and `$nin`, as literals. -/
def parseSet (path name : Units) (operand : GoValue) : Except Error (List GoValue) :=
  match operand with
  | .array items =>
    if items.length > maxSetItems then
      .error (invalid (code.text "`" ++ path ++ code.text "`: `" ++ name ++ code.text "` has "
        ++ code.text (toString items.length) ++ code.text " items (limit "
        ++ code.text (toString maxSetItems) ++ code.text ")"))
    else do
      items.forM (checkLiteral path name 0)
      pure (items.map literal)
  | _ => .error (wrong path name "an array" operand)

/-- `$gt`, `$gte`, `$lt` and `$lte`. -/
def parseBound (path name : Units) (op : OpName) (operand : GoValue) :
    Except Error (OpFn GoDoc (GoValue × Bool)) :=
  match operand with
  | .number (.number t) => do
    checkNumber path name t
    pure fun w _ => match w.1 with
      | .number (.float64 f) => w.2 && accept op (compare f.value t.double.value)
      | _ => false
  | .string bound => pure fun w _ => match w.1 with
    | .string s => w.2 && accept op (compare s bound)
    | _ => false
  | _ => .error (wrong path name "a number or a string" operand)

/-- Every operator of `parseOperator` but `$any`. -/
def parseLeaf (path name : Units) (operand : GoValue) : Except Error (OpFn GoDoc (GoValue × Bool)) :=
  match opName code name with
  | .eq => do
    checkLiteral path name 0 operand
    pure fun w _ => w.2 && jsonEqual w.1 (literal operand)
  | .ne => do
    checkLiteral path name 0 operand
    pure fun w _ => !w.2 || !jsonEqual w.1 (literal operand)
  | .inSet => do
    let set ← parseSet path name operand
    pure fun w _ => w.2 && set.any (jsonEqual w.1)
  | .nin => do
    let set ← parseSet path name operand
    pure fun w _ => !w.2 || !set.any (jsonEqual w.1)
  | .gt => parseBound path name .gt operand
  | .gte => parseBound path name .gte operand
  | .lt => parseBound path name .lt operand
  | .lte => parseBound path name .lte operand
  | .existsIs =>
    match operand with
    | .bool want => pure fun w _ => w.2 = want
    | _ => .error (wrong path name "a boolean" operand)
  | .hasPrefix =>
    match operand with
    | .string p => pure fun w _ => match w.1 with
      | .string s => w.2 && p.isPrefixOf s
      | _ => false
    | _ => .error (wrong path name "a string" operand)
  | .any | .combinator => .error (invalid (code.text "`" ++ path ++ code.text "`: `" ++ name
      ++ code.text "` combines filters and is not a value operator"))
  | .unknown => .error (invalid (code.text "`" ++ path ++ code.text "`: unknown operator `" ++ name
      ++ code.text "`"))

/-! ### The host -/

/-- `0` or `[1-9][0-9]*`, and within `int` (`strconv.Atoi`). -/
def canonicalIndex (s : Units) : Option Nat :=
  if s = [] ∨ (s.head? = some 48 ∧ s.length > 1) then none
  else if s.all isDigit then
    if decimal s < 2 ^ 63 then some (decimal s) else none
  else none

/-- The elements of an array, each in JSON form. -/
def items (w : GoValue × Bool) : Option (List GoValue) :=
  match w with
  | (.array x, true) => some (x.map viewElement)
  | _ => none

/-- `sortedKeys`, each with its value. -/
def sortedMembers (obj : List (Units × GoValue)) : List (Units × GoValue) := obj.insertionSort keyLe

def host : Host Num GoDoc GoValue (GoValue × Bool) where
  code := code
  paths := ⟨canonicalIndex, fun u => utf8Char (Char.ofNat u)⟩
  members := sortedMembers
  resolve := resolve
  items := items
  view := fun el => (el, true)
  parseLeaf := parseLeaf

end Iii.Go
