import Iii.Python.Value
import Iii.Sdk.Compile

/-! The Python SDK's filter (`sdk/packages/python/iii/src/iii/filter`).

The compiler is the one of the other SDKs; a path, an operator and the elements `$any`
looks at read the host value through `json_view`. A filter is JSON as it stands: a tuple
is how Python spells an array. -/
namespace Iii.Python
open Filter Sdk

abbrev Source := Json Units Literal

/-- A document: a dict of roots. -/
abbrev Document := Items

/-! ### Paths -/

/-- `_canonical_index`: longer than any array can be never selects an element. -/
def canonicalIndex (segment : Units) : Option Nat :=
  if segment.length > 15 ∨ !isDecimal segment then none else some (decimal segment)

section Operators
variable (R : FloatRepr)

/-- `step` of `compile_path`. -/
def step : List Sdk.Segment → View → View
  | [], current => current
  | segment :: rest, some (.dict items) => step rest (objectMember R items segment.key)
  | segment :: rest, some (.list items) | segment :: rest, some (.tuple items) =>
    match segment.index with
    | none => none
    | some index => if index ≥ items.length then none else step rest (some (arrayElement items index))
  | _ :: _, _ => none

/-- A root of the document. -/
def docMember (doc : Document) (root : Root) : View :=
  (lookup doc (code.text (rootName root))).bind fun m => jsonView m.2

/-- `compile_path`. -/
def resolve (p : Sdk.Path) (doc : Document) (element : View) : View :=
  step R p.segments (if p.root = .element then element else docMember doc p.root)

/-! ### Operators -/

def wrong (path name : Units) (expected : String) (operand : Source) : Error :=
  invalid (code.text "`" ++ path ++ code.text "`: `" ++ name ++ code.text "` takes "
    ++ code.text expected ++ code.text ", found " ++ code.text (kind operand))

/-- `_check_literal_depth`: a scalar is 0, `[]` and `[1]` are 1. -/
def checkLiteralDepth (path name : Units) (literal : Source) : Except Error Unit :=
  if Json.walkDepth maxLiteralDepth literal.count [(literal, 1)] then .ok ()
  else .error (invalid (code.text "`" ++ path ++ code.text "`: `" ++ name
    ++ code.text "` nests a literal deeper than " ++ code.text (toString maxLiteralDepth)
    ++ code.text " arrays / objects"))

/-- The items of `$in` and `$nin`. -/
def parseSet (path name : Units) (operand : Source) : Except Error (List Source) :=
  match operand with
  | .array items =>
    if items.length > maxSetItems then
      .error (invalid (code.text "`" ++ path ++ code.text "`: `" ++ name ++ code.text "` has "
        ++ code.text (toString items.length) ++ code.text " items (limit "
        ++ code.text (toString maxSetItems) ++ code.text ")"))
    else do
      items.forM (checkLiteralDepth path name)
      pure items
  | _ => .error (wrong path name "an array" operand)

/-- `-1`, `1` or `0` from two comparisons by `<`. -/
def orderBy {α : Type} (less : α → α → Bool) (x bound : α) : Ordering :=
  if less x bound then .lt else if less bound x then .gt else .eq

/-- `$gt`, `$gte`, `$lt` and `$lte`: a `str` is ordered by code point. -/
def parseBound (path name : Units) (op : OpName) (operand : Source) :
    Except Error (OpFn Document View) :=
  match operand with
  | .number bound => .ok fun v _ => match v.bind asDouble with
    | some x => accept op (orderBy PyFloat.lt x bound.asDouble)
    | none => false
  | .string bound => .ok fun v _ => match v with
    | some (.str s) => accept op (orderBy (fun a b => a < b) s bound)
    | _ => false
  | _ => .error (wrong path name "a number or a string" operand)

/-- Some item equals the value. -/
def member (items : List Source) (v : PyValue) : Bool := items.any fun item => jsonEquals R v item

/-- Every operator of `_parse_operator` but `$any`. -/
def parseLeaf (path name : Units) (operand : Source) : Except Error (OpFn Document View) :=
  match opName code name with
  | .eq => do
    checkLiteralDepth path name operand
    pure fun v _ => v.any fun v => jsonEquals R v operand
  | .ne => do
    checkLiteralDepth path name operand
    pure fun v _ => v.all fun v => !jsonEquals R v operand
  | .inSet => do
    let items ← parseSet path name operand
    pure fun v _ => v.any (member R items)
  | .nin => do
    let items ← parseSet path name operand
    pure fun v _ => v.all fun v => !member R items v
  | .gt => parseBound path name .gt operand
  | .gte => parseBound path name .gte operand
  | .lt => parseBound path name .lt operand
  | .lte => parseBound path name .lte operand
  | .existsIs =>
    match operand with
    | .bool expected => .ok fun v _ => v.isSome = expected
    | _ => .error (wrong path name "a boolean" operand)
  | .hasPrefix =>
    match operand with
    | .string p => .ok fun v _ => match v with
      | some (.str s) => p.isPrefixOf s
      | _ => false
    | _ => .error (wrong path name "a string" operand)
  | .any | .combinator => .error (invalid (code.text "`" ++ path ++ code.text "`: `" ++ name
      ++ code.text "` combines filters and is not a value operator"))
  | .unknown => .error (invalid (code.text "`" ++ path ++ code.text "`: unknown operator `" ++ name
      ++ code.text "`"))

/-- The elements `$any` looks at. -/
def items (v : View) : Option (List View) :=
  match v with
  | some (.list x) | some (.tuple x) =>
    some ((List.range x.length).map fun index => some (arrayElement x index))
  | _ => none

def host : Host Literal Document View View where
  code := code
  paths := ⟨canonicalIndex, fun u => [u]⟩
  members := id
  resolve := resolve R
  items := items
  view := id
  parseLeaf := parseLeaf R

/-! ### `check_json` -/

/-- `_where`. -/
def place (at_ : Units) : Units :=
  if at_ = [] then code.text "the filter" else code.text "`" ++ at_ ++ code.text "`"

/-- `_check_string`: UTF-8 encodes every code point but a surrogate. -/
def checkString (s at_ what : Units) : Except Error Unit :=
  if s.any fun u => 0xD800 ≤ u && u ≤ 0xDFFF then
    .error (invalid (place at_ ++ code.text ": " ++ what
      ++ code.text " holds a lone UTF-16 surrogate, which is not valid Unicode"))
  else .ok ()

/-- `abs(value) <= MAX_SAFE_LITERAL`. -/
def Literal.safe : Literal → Bool
  | .int n => n.natAbs ≤ maxSafeInteger
  | .float f => f.value.natAbs ≤ maxSafeInteger * 2 ^ 1074

def Literal.text : Literal → Units
  | .int n => code.text (toString n)
  | .float f => R.repr f

/-- An entry of the stack: a value, where it is and its level. -/
structure Pending where
  value : Source
  place : Units
  depth : Nat

def pushItems (at_ : Units) (depth : Nat) (items : List Source) : List Pending :=
  (items.zipIdx.map fun e =>
    ⟨e.1, at_ ++ code.text "[" ++ code.text (toString e.2) ++ code.text "]", depth + 1⟩).reverse

def memberPlace (at_ key : Units) : Units := if at_ = [] then key else at_ ++ code.text "." ++ key

def pushMembers (at_ : Units) (depth : Nat) (members : List (Units × Source)) : List Pending :=
  (members.map fun m => ⟨m.2, memberPlace at_ m.1, depth + 1⟩).reverse

def tooNested : Error :=
  invalid (code.text "the filter nests more than " ++ code.text (toString maxJsonDepth)
    ++ code.text " arrays / objects")

/-- The loop of `check_json`. -/
def checkLoop : (passes : Nat) → (stack : List Pending) → (visited : Nat) → Except Error Unit
  | _, [], _ => .ok ()
  | 0, _ :: _, _ => .error (invalid [])
  | passes + 1, ⟨value, at_, depth⟩ :: stack, visited =>
    if visited + 1 > maxEncodedBytes then
      .error (invalid (code.text "the filter encodes to more than "
        ++ code.text (toString maxEncodedBytes) ++ code.text " bytes"))
    else
      match value with
      | .null | .bool _ => checkLoop passes stack (visited + 1)
      | .string s => do
        checkString s at_ (code.text "a string")
        checkLoop passes stack (visited + 1)
      | .number n =>
        if n.safe then checkLoop passes stack (visited + 1)
        else .error (invalid (place at_ ++ code.text ": the number " ++ n.text R
          ++ code.text " is outside ±2^53"))
      | .array items =>
        if depth > maxJsonDepth then .error tooNested
        else checkLoop passes (pushItems at_ depth items ++ stack) (visited + 1)
      | .object members =>
        if depth > maxJsonDepth then .error tooNested
        else do
          members.forM fun m => checkString m.1 (memberPlace at_ m.1) (code.text "the key")
          checkLoop passes (pushMembers at_ depth members ++ stack) (visited + 1)

/-- `check_json` of a source that is made of JSON values. -/
def checkJson (src : Source) : Except Error Unit := checkLoop R src.count [⟨src, [], 1⟩] 0

/-! ### `CompiledFilter` -/

structure Compiled where
  pred : Pred Document View
  roots : Roots
  matchAll : Bool

/-- `compile_source(src, trusted=True)`: a filter the engine validated, whose size is not
measured again. What `json.dumps` writes of a checked source, `json.loads` reads back. -/
def compileSource (src : Source) : Except Error Compiled :=
  match src with
  | .object _ => do
    checkJson R src
    let (clauses, roots) ← compileClauses (host R) src
    return ⟨andPred clauses, roots, clauses.isEmpty⟩
  | _ => .error (invalid (code.text "a filter must be a JSON object, found " ++ code.text (kind src)))

end Operators

/-- `CompiledFilter.matches`. -/
def Compiled.matches (f : Compiled) (doc : Document) : Bool :=
  if f.matchAll then true else f.pred doc (some .none)

end Iii.Python
