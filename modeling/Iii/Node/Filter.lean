import Iii.Sdk.Compile

/-! The Node / browser SDK's filter (`sdk/packages/node/iii/src/filter`).

A JavaScript string is its UTF-16 code units and a number a double. An object is its
list of own properties in property order. `undefined` is `none`: a path that resolves to
nothing, and never a member of a JSON value. Equality, the checks in front of the
compiler and the depth of a literal are loops with their own stack. -/
namespace Iii.Node
open Filter Sdk

/-! ### Strings -/

/-- The UTF-16 code units of a character. -/
def utf16Char (c : Char) : Units :=
  if c.toNat < 0x10000 then [c.toNat]
  else [0xD800 + (c.toNat - 0x10000) / 1024, 0xDC00 + (c.toNat - 0x10000) % 1024]

/-- No character is a surrogate, so the units of one never start another's. -/
def utf16Code : Lib.PrefixCode Char Nat where
  word := utf16Char
  ne_nil := fun c => by
    unfold utf16Char
    split_ifs <;> simp
  cancel := by
    intro a b x y h
    have ha : a.toNat < 0xD800 ∨ 0xDFFF < a.toNat ∧ a.toNat < 0x110000 := a.valid
    have hb : b.toNat < 0xD800 ∨ 0xDFFF < b.toNat ∧ b.toNat < 0x110000 := b.valid
    unfold utf16Char at h
    split_ifs at h <;> simp only [List.cons_append, List.nil_append, List.cons.injEq] at h
    · exact ⟨Char.toNat_inj.mp h.1, h.2⟩
    · omega
    · omega
    · exact ⟨Char.toNat_inj.mp (by omega), h.2.2⟩

/-- Code units of a JavaScript string. -/
def code : UnitCode where
  word := utf16Char
  ascii := fun c h => by
    rw [utf16Char, if_pos (by omega)]
  wide := fun c h u hu => by
    unfold utf16Char at hu
    split_ifs at hu <;> simp at hu <;> omega
  ne_nil := utf16Code.ne_nil
  injective := utf16Code.encode_injective

/-- A code unit where code unit and code point order differ, moved into code point
order: surrogates go above `U+FFFF`. -/
def fixUp (u : Nat) : Nat := if 0xE000 ≤ u then u - 0x800 else u + 0x2000

/-- The order of two different code units. -/
def unitLt (x y : Nat) : Bool :=
  if 0xD800 ≤ x ∧ 0xD800 ≤ y then fixUp x < fixUp y else x < y

/-- The loop of `compareCodePoints`. -/
def compareUnits : Units → Units → Ordering
  | [], [] => .eq
  | [], _ :: _ => .lt
  | _ :: _, [] => .gt
  | x :: a, y :: b => if x ≠ y then (if unitLt x y then .lt else .gt) else compareUnits a b

def compareCodePoints (a b : Units) : Ordering := if a = b then .eq else compareUnits a b

/-- `$prefix`: a prefix never ends inside a surrogate pair. -/
def hasCodePointPrefix (s p : Units) : Bool :=
  if !p.isPrefixOf s then false
  else if p.length = 0 ∨ p.length = s.length then true
  else
    let last := p.getLastD 0
    let next := s.getD p.length 0
    if last < 0xD800 ∨ last > 0xDBFF then true else next < 0xDC00 || next > 0xDFFF

/-! ### Host values -/

abbrev JsValue := Json Units F64

/-- A value as JSON sees it; `undefined` is absent. -/
abbrev JsonView := Option JsValue

/-- `jsonView` of a JSON value: JSON leaves none out. -/
def jsonView (v : JsValue) : JsonView := some v

/-- Element `index` of an array: a member JSON drops is `null`. -/
def arrayElement (array : List JsValue) (index : Nat) : JsonView :=
  some ((array[index]?.bind jsonView).getD .null)

/-- An own member of an object. -/
def objectMember (object : List (Units × JsValue)) (key : Units) : JsonView :=
  (Json.get? object key).bind jsonView

def scalarEquals (host : JsonView) (literal : JsValue) : Bool :=
  match literal, host with
  | .null, some .null => true
  | .bool l, some (.bool h) => h = l
  | .number l, some (.number h) => h.value = l.value
  | .string l, some (.string h) => h = l
  | _, _ => false

/-- A member of the host for every member of the literal, in the order pushed. -/
def pairMembers (h : List (Units × JsValue)) :
    List (Units × JsValue) → Option (List (JsonView × JsValue))
  | [] => some []
  | (k, l) :: rest =>
    match objectMember h k with
    | none => none
    | some member => (pairMembers h rest).map ((some member, l) :: ·)

/-- The host must not hold more members than the literal: counts those JSON keeps and
stops once there are more than `limit`. -/
def holdsExactly (limit : Nat) : (present : Nat) → List (Units × JsValue) → Bool
  | present, [] => present = limit
  | present, m :: rest =>
    match jsonView m.2 with
    | none => holdsExactly limit present rest
    | some _ => if present + 1 > limit then false else holdsExactly limit (present + 1) rest

/-- The loop of `jsonEquals`. The values of the literals on the stack bound the
passes. -/
def equalsLoop : (passes : Nat) → (stack : List (JsonView × JsValue)) → Bool
  | _, [] => true
  | 0, _ :: _ => false
  | passes + 1, (h, l) :: stack =>
    match l with
    | .array ls =>
      match h with
      | some (.array hs) =>
        if hs.length ≠ ls.length then false
        else equalsLoop passes
          (((List.range ls.length).map (arrayElement hs)).zip ls |>.reverse |> (· ++ stack))
      | _ => false
    | .object ls =>
      match h with
      | some (.object hs) =>
        match pairMembers hs ls with
        | none => false
        | some pairs =>
          if holdsExactly ls.length 0 hs then equalsLoop passes (pairs.reverse ++ stack) else false
      | _ => false
    | _ => if scalarEquals h l then equalsLoop passes stack else false

/-- JSON deep equality between a host value and a literal. -/
def jsonEquals (host : JsonView) (literal : JsValue) : Bool :=
  equalsLoop literal.count [(host, literal)]

/-! ### Paths -/

/-- `0` or `[1-9][0-9]*`; longer than any array can be never selects an element. -/
def canonicalIndex (segment : Units) : Option Nat :=
  if segment.length > 15 ∨ !isDecimal segment then none else some (decimal segment)

/-- The loop of a compiled path. -/
def step : List Sdk.Segment → JsonView → JsonView
  | [], current => current
  | segment :: rest, some (.array x) =>
    match segment.index with
    | none => none
    | some index => if index ≥ x.length then none else step rest (arrayElement x index)
  | segment :: rest, some (.object x) => step rest (objectMember x segment.key)
  | _ :: _, _ => none

/-- A document: an object of roots. -/
def docMember (doc : JsValue) (root : Root) : JsonView :=
  match doc with
  | .object x => objectMember x (code.text (rootName root))
  | _ => none

/-- `compilePath`. -/
def resolve (p : Sdk.Path) (doc : JsValue) (element : JsonView) : JsonView :=
  step p.segments (if p.root = .element then element else docMember doc p.root)

/-! ### Operators -/

def wrong (path name : Units) (expected : String) (operand : JsValue) : Error :=
  invalid (code.text "`" ++ path ++ code.text "`: `" ++ name ++ code.text "` takes "
    ++ code.text expected ++ code.text ", found " ++ code.text (kind operand))

/-- `checkLiteralDepth`: a scalar is 0, `[]` and `[1]` are 1. -/
def checkLiteralDepth (path name : Units) (literal : JsValue) : Except Error Unit :=
  if Json.walkDepth maxLiteralDepth literal.count [(literal, 1)] then .ok ()
  else .error (invalid (code.text "`" ++ path ++ code.text "`: `" ++ name
    ++ code.text "` nests a literal deeper than " ++ code.text (toString maxLiteralDepth)
    ++ code.text " arrays / objects"))

/-- The items of `$in` and `$nin`. -/
def parseSet (path name : Units) (operand : JsValue) : Except Error (List JsValue) :=
  match operand with
  | .array items =>
    if items.length > maxSetItems then
      .error (invalid (code.text "`" ++ path ++ code.text "`: `" ++ name ++ code.text "` has "
        ++ code.text (toString items.length) ++ code.text " items (limit "
        ++ code.text (toString maxSetItems) ++ code.text ")"))
    else do
      items.forM (checkLiteralDepth path name)
      pure items
  | _ => .error (wrong path name "an array" operand)

/-- `$gt`, `$gte`, `$lt` and `$lte`. -/
def parseBound (path name : Units) (op : OpName) (operand : JsValue) :
    Except Error (OpFn JsValue JsonView) :=
  match operand with
  | .number bound => .ok fun v _ => match v with
    | some (.number n) => accept op (compare n.value bound.value)
    | _ => false
  | .string bound => .ok fun v _ => match v with
    | some (.string s) => accept op (compareCodePoints s bound)
    | _ => false
  | _ => .error (wrong path name "a number or a string" operand)

/-- Every operator of `parseOperator` but `$any`. The numbers of the filter were
checked by `checkJson`. -/
def parseLeaf (path name : Units) (operand : JsValue) : Except Error (OpFn JsValue JsonView) :=
  match opName code name with
  | .eq => do
    checkLiteralDepth path name operand
    pure fun v _ => v.isSome && jsonEquals v operand
  | .ne => do
    checkLiteralDepth path name operand
    pure fun v _ => !v.isSome || !jsonEquals v operand
  | .inSet => do
    let items ← parseSet path name operand
    pure fun v _ => v.isSome && items.any (jsonEquals v)
  | .nin => do
    let items ← parseSet path name operand
    pure fun v _ => !v.isSome || !items.any (jsonEquals v)
  | .gt => parseBound path name .gt operand
  | .gte => parseBound path name .gte operand
  | .lt => parseBound path name .lt operand
  | .lte => parseBound path name .lte operand
  | .existsIs =>
    match operand with
    | .bool expected => .ok fun v _ => v.isSome = expected
    | _ => .error (wrong path name "a boolean" operand)
  | .hasPrefix =>
    match operand with
    | .string p => .ok fun v _ => match v with
      | some (.string s) => hasCodePointPrefix s p
      | _ => false
    | _ => .error (wrong path name "a string" operand)
  | .any | .combinator => .error (invalid (code.text "`" ++ path ++ code.text "`: `" ++ name
      ++ code.text "` combines filters and is not a value operator"))
  | .unknown => .error (invalid (code.text "`" ++ path ++ code.text "`: unknown operator `" ++ name
      ++ code.text "`"))

/-! ### The host -/

/-- The elements `$any` looks at. -/
def items (v : JsonView) : Option (List JsonView) :=
  match v with
  | some (.array x) => some ((List.range x.length).map (arrayElement x))
  | _ => none

def host : Host F64 JsValue JsonView JsonView where
  code := code
  paths := ⟨canonicalIndex, fun u => [u]⟩
  members := id
  resolve := resolve
  items := items
  view := id
  parseLeaf := parseLeaf

/-! ### `checkJson` -/

section Check
variable (numberText : F64 → Units)

/-- Where a value is in the filter, for the messages. -/
def place (at_ : Units) : Units :=
  if at_ = [] then code.text "the filter" else code.text "`" ++ at_ ++ code.text "`"

/-- No surrogate stands alone. -/
def wellFormed : Units → Bool
  | [] => true
  | c :: rest =>
    if c < 0xD800 ∨ c > 0xDFFF then wellFormed rest
    else match rest with
      | [] => false
      | next :: rest => c ≤ 0xDBFF && 0xDC00 ≤ next && next ≤ 0xDFFF && wellFormed rest

def checkString (s at_ what : Units) : Except Error Unit :=
  if wellFormed s then .ok ()
  else .error (invalid (place at_ ++ code.text ": " ++ what
    ++ code.text " holds a lone UTF-16 surrogate, which is not valid Unicode"))

/-- A value to check. What ends an ancestor is left out: a JSON value contains no
value twice on the way to its root. -/
structure Pending where
  value : JsValue
  place : Units
  depth : Nat

def pushItems (at_ : Units) (depth : Nat) (items : List JsValue) : List Pending :=
  (items.zipIdx.map fun e =>
    ⟨e.1, at_ ++ code.text "[" ++ code.text (toString e.2) ++ code.text "]", depth + 1⟩).reverse

def memberPlace (at_ key : Units) : Units := if at_ = [] then key else at_ ++ code.text "." ++ key

def pushMembers (at_ : Units) (depth : Nat) (members : List (Units × JsValue)) : List Pending :=
  (members.map fun m => ⟨m.2, memberPlace at_ m.1, depth + 1⟩).reverse

def tooNested (at_ : Units) : Error :=
  invalid (place at_ ++ code.text ": the filter nests deeper than "
    ++ code.text (toString maxJsonDepth) ++ code.text " arrays / objects")

/-- The loop of `checkJson`. -/
def checkLoop : (passes : Nat) → (stack : List Pending) → (visited : Nat) → Except Error Unit
  | _, [], _ => .ok ()
  | 0, _ :: _, _ => .error (invalid [])
  | passes + 1, ⟨value, at_, depth⟩ :: stack, visited =>
    if visited + 1 > maxEncodedBytes then
      .error (invalid (code.text "the filter encodes to more than "
        ++ code.text (toString maxEncodedBytes) ++ code.text " bytes"))
    else
      match value with
      | .null | .bool _ => checkLoop passes stack (visited + 1)
      | .string s => do
        checkString s at_ (code.text "a string")
        checkLoop passes stack (visited + 1)
      | .number n =>
        if n.value.natAbs > maxSafeInteger * 2 ^ 1074 then
          .error (invalid (place at_ ++ code.text ": the number " ++ numberText n
            ++ code.text " is outside ±2^53"))
        else checkLoop passes stack (visited + 1)
      | .array items =>
        if depth > maxJsonDepth then .error (tooNested at_)
        else checkLoop passes (pushItems at_ depth items ++ stack) (visited + 1)
      | .object members =>
        if depth > maxJsonDepth then .error (tooNested at_)
        else do
          members.forM fun m => checkString m.1 (memberPlace at_ m.1) (code.text "the key")
          checkLoop passes (pushMembers at_ depth members ++ stack) (visited + 1)

def checkJson (src : JsValue) : Except Error Unit := checkLoop numberText src.count [⟨src, [], 1⟩] 0

/-! ### `compile` -/

/-- A number read back from its JSON text: `-0` is written `0`. -/
def jsonNumber (n : F64) : F64 :=
  if n.mant = 0 then {n with neg := false} else n

/-- `JSON.parse(JSON.stringify(src))` of a JSON value. -/
def jsonCopy (src : JsValue) : JsValue := src.map id jsonNumber

structure Compiled where
  pred : Pred JsValue JsonView
  roots : Roots
  matchAll : Bool

/-- `compile(src, true)`: a filter the engine validated, whose size is not measured
again. -/
def compile (src : JsValue) : Except Error Compiled :=
  match src with
  | .object _ => do
    checkJson numberText src
    let (clauses, roots) ← compileClauses host (jsonCopy src)
    return ⟨andPred clauses, roots, clauses.isEmpty⟩
  | _ => .error (invalid (code.text "a filter must be a JSON object, found " ++ code.text (kind src)))

end Check

/-- `CompiledFilter.matches`: what is not an object or an array is read as `{}`. -/
def Compiled.matches (f : Compiled) (doc : JsValue) : Bool :=
  match doc with
  | .object _ | .array _ => f.pred doc none
  | _ => f.pred (.object []) none

end Iii.Node
