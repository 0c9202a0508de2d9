import Iii.Filter.Parse
import Iii.Schema.Valid

/-! Schema path checks (`schema.rs`): `input.*` paths against the function's `request_format`, `output.*` paths against
its `response_format`.

The walk follows one schema down the segments of a path. Where a schema rules a segment out the path is refused; where
the walk cannot tell, it gives up with a warning and accepts the rest. Paths inside `$any` start at the schema of the
items. The checker gathers the warnings of the whole filter and stops at the first path that is refused. -/
namespace Iii.Schema
open Filter

def FilterError.invalidPath (message : String) : FilterError := ⟨.invalidFilterPath, message⟩

/-- How many `$ref` / wrapper hops to follow before giving up. -/
def maxHops : Nat := 32

/-- Keywords that can admit a property that the walk cannot see. -/
def unresolved : List String :=
  ["patternProperties", "anyOf", "oneOf", "allOf", "if", "dependentSchemas", "unevaluatedProperties"]

/-- Keywords that shape where a value can be. -/
def structural : List String :=
  ["properties", "additionalProperties", "items", "prefixItems", "additionalItems", "patternProperties", "anyOf",
    "oneOf", "allOf", "not", "if", "then", "else", "dependentSchemas", "unevaluatedProperties", "$ref", "$dynamicRef"]

/-- Why a path is not verified. -/
inductive Reason where
  | opened
  | keyword (keyword : String)
  | type (ty : String)
  deriving DecidableEq

inductive Step where
  | next (schema : Value)
  | notInSchema
  | unverified (reason : Reason)

/-- A position in a schema; the schema is `none` once it is unverifiable. -/
structure At where
  document : Value
  schema : Option Value
  display : String
  format : String

/-! ### Schemas -/

def containsKey (object : Members) (key : String) : Bool := (Json.get? object key).isSome

def hasStructuralBesides (object : Members) (keyword : String) : Bool :=
  structural.any fun k => k ≠ keyword && containsKey object k

/-- `local_pointer`. -/
def localPointer (document : Value) (reference : String) : Option Value :=
  match reference.toList with
  | '#' :: rest => if rest = [] then some document else pointer document rest
  | _ => none

def isNullSchema : Value → Bool
  | .object object => Json.get? object "type" = some (.string "null")
  | _ => false

/-- A single-branch `allOf` with nothing beside it that counts. -/
def singleBranch (object : Members) : Option Value :=
  match Json.get? object "allOf" with
  | some (.array [branch]) => if hasStructuralBesides object "allOf" then none else some branch
  | _ => none

/-- The one branch of `anyOf` or `oneOf` that is not `{"type": "null"}`. -/
def nullableBranch (object : Members) (keyword : String) : Option Value :=
  match Json.get? object keyword with
  | some (.array branches) =>
    if hasStructuralBesides object keyword then none
    else
      match branches.filter fun b => !isNullSchema b with
      | [only] => some only
      | _ => none
  | _ => none

def nullable (object : Members) : Option Value := ["anyOf", "oneOf"].findSome? (nullableBranch object)

/-- What the loop of `resolve` does with a schema object. -/
inductive Hop where
  | stay
  | through (schema : Value)
  | stuck (reason : Reason)

def hop (document : Value) (object : Members) : Hop :=
  match Json.get? object "$ref" with
  | some reference =>
    if hasStructuralBesides object "$ref" then .stuck (.keyword "$ref")
    else
      match reference with
      | .string r =>
        match localPointer document r with
        | some target => .through target
        | none => .stuck (.keyword "$ref")
      | _ => .stuck (.keyword "$ref")
  | none =>
    if containsKey object "$dynamicRef" then .stuck (.keyword "$dynamicRef")
    else
      match singleBranch object with
      | some branch => .through branch
      | none =>
        match nullable object with
        | some only => .through only
        | none => .stay

/-- `resolve`: follows local `$ref`s, single-branch `allOf` and nullable wrappers. -/
def resolve (document : Value) : (hops : Nat) → (schema : Value) → Except Reason Value
  | 0, _ => .error (.keyword "$ref")
  | hops + 1, .object object =>
    match hop document object with
    | .stay => .ok (.object object)
    | .through next => resolve document hops next
    | .stuck reason => .error reason
  | _ + 1, schema => .ok schema

def declares (object : Members) (ty : String) : Bool :=
  match Json.get? object "type" with
  | some (.string t) => t = ty
  | some (.array types) => types.any fun t => t = .string ty
  | _ => false

section Text
variable (ft : FloatText)

def typeName : Value → String
  | .string t => t
  | other => String.ofList (write ft other)

/-- The declared type when it rules out stepping in: a key needs an object, an index an object or an array. -/
def excludedType (object : Members) (index : Bool) : Option String :=
  match Json.get? object "type" with
  | none => none
  | some ty =>
    let allows (t : String) : Bool := t = "object" || (index && t = "array")
    match ty with
    | .string t => if allows t then none else some (typeName ft ty)
    | .array types =>
      if types.any fun t => match t with
        | .string t => allows t
        | _ => false
      then none else some (typeName ft ty)
    | _ => none

/-- The end of `select`, for a segment that neither `properties` nor `items` answers. -/
def selectKey (object : Members) (index : Bool) : Step :=
  match unresolved.find? (containsKey object) with
  | some keyword => .unverified (.keyword keyword)
  | none =>
    match Json.get? object "additionalProperties" with
    | some (.bool false) => .notInSchema
    | some (.object next) => .next (.object next)
    | _ =>
      match excludedType ft object index with
      | some ty => .unverified (.type ty)
      | none => .unverified .opened

/-- `select`, for a schema that is resolved. -/
def selectIn (object : Members) (segment : Segment) : Step :=
  match Json.get? (membersAt object "properties") segment.key with
  | some next => .next next
  | none =>
    if segment.index.isSome then
      match Json.get? object "items" with
      | some (.object items) => .next (.object items)
      | some (.bool items) => .next (.bool items)
      | some _ => .unverified (.keyword "items")
      | none =>
        if containsKey object "prefixItems" then .unverified (.keyword "prefixItems")
        else selectKey ft object segment.index.isSome
    else selectKey ft object segment.index.isSome

def select (document schema : Value) (segment : Segment) : Step :=
  match resolve document maxHops schema with
  | .error reason => .unverified reason
  | .ok (.object object) => selectIn ft object segment
  | .ok (.bool false) => .notInSchema
  | .ok _ => .unverified .opened

def isFalse (document schema : Value) : Bool :=
  match resolve document maxHops schema with
  | .ok (.bool false) => true
  | _ => false

/-- One segment down; reaching a `false` schema is `NotInSchema`. -/
def step (document schema : Value) (segment : Segment) : Step :=
  match select ft document schema segment with
  | .next next => if isFalse document next then .notInSchema else .next next
  | s => s

/-- The element schema of an array schema. -/
def itemsOf (document schema : Value) : Except Reason Value :=
  match resolve document maxHops schema with
  | .error reason => .error reason
  | .ok (.object object) =>
    match Json.get? object "items" with
    | some (.object items) => .ok (.object items)
    | some (.bool items) => .ok (.bool items)
    | some _ => .error (.keyword "items")
    | none =>
      if containsKey object "prefixItems" then .error (.keyword "prefixItems")
      else
        match Json.get? object "type" with
        | some ty => if declares object "array" then .error .opened else .error (.type (typeName ft ty))
        | none => .error .opened
  | .ok _ => .error .opened

/-! ### The walk -/

/-- `push_escaped`. -/
def pushEscaped (display key : String) : String :=
  String.ofList (display.toList ++ key.toList.flatMap fun c => if c = '.' ∨ c = '\\' then ['\\', c] else [c])

/-- `warn`. -/
def warn (warnings : List String) (path format place : String) (reason : Reason) : List String :=
  let root := String.ofList (path.toList.takeWhile fun c => c ≠ '.' && c ≠ '[')
  let warning :=
    match reason with
    | .opened =>
      if place = root then path ++ ": " ++ format ++ " is open; path not verified"
      else path ++ ": " ++ format ++ " is open at " ++ place ++ "; path not verified"
    | .keyword keyword => path ++ ": " ++ format ++ " uses `" ++ keyword ++ "` at " ++ place ++ "; path not verified"
    | .type ty => path ++ ": " ++ format ++ " declares " ++ place ++ " as " ++ ty ++ "; the path is always absent"
  if warnings.contains warning then warnings else warnings ++ [warning]

/-- The loop of `walk`; the schema is `none` from where it could not be followed, and `lost` says why. -/
def walkFrom (document : Value) (format : String) : List Segment → (display : String) → (schema : Option Value) →
    (lost : Option (String × Reason)) → Except FilterError (String × Option Value × Option (String × Reason))
  | [], display, schema, lost => .ok (display, schema, lost)
  | segment :: rest, display, schema, lost =>
    let longer := pushEscaped (display ++ ".") segment.key
    match schema with
    | none => walkFrom document format rest longer none lost
    | some current =>
      match step ft document current segment with
      | .next next => walkFrom document format rest longer (some next) lost
      | .notInSchema => .error (FilterError.invalidPath (longer ++ " is not in " ++ format))
      | .unverified reason => walkFrom document format rest longer none (some (display, reason))

/-- `walk`: the position at the end of the segments. -/
def walk (here : At) (segments : List Segment) (warnings : List String) : Except FilterError (At × List String) :=
  match walkFrom ft here.document here.format segments here.display here.schema none with
  | .error e => .error e
  | .ok (display, schema, lost) =>
    .ok ({ here with schema := schema, display := display },
      match lost with
      | some (place, reason) => warn warnings display here.format place reason
      | none => warnings)

/-! ### The checker -/

mutual
/-- `element_paths`: the `@` paths with a segment, those of nested `$any`s left out. -/
def elementPaths : Node → List (List Segment)
  | .and nodes => elementPathsOf nodes
  | .or nodes => elementPathsOf nodes
  | .not node => elementPaths node
  | .path p _ => if p.root = .element ∧ p.segments ≠ [] then [p.segments] else []
def elementPathsOf : List Node → List (List Segment)
  | [] => []
  | node :: rest => elementPaths node ++ elementPathsOf rest
end

/-- `element_warnings`. -/
def elementWarnings (operand : AnyOperand) (here : At) (reason : Reason) (warnings : List String) : List String :=
  match operand with
  | .ops _ => warnings
  | .filter node =>
    (elementPaths node).foldl
      (fun warnings segments =>
        let display := segments.foldl (fun display s => pushEscaped (display ++ ".") s.key) (here.display ++ "[*]")
        warn warnings display here.format here.display reason)
      warnings

structure Checker where
  requestFormat : Option Value
  responseFormat : Option Value

/-- Where a path starts, `element` being the array that `@` is an element of. -/
def Checker.start (c : Checker) (element : Option At) : Root → Option At
  | .input => c.requestFormat.map fun s => ⟨s, some s, "input", "request_format"⟩
  | .output => c.responseFormat.map fun s => ⟨s, some s, "output", "response_format"⟩
  | .element => element.map fun here => { here with display := here.display ++ "[*]" }
  | .error | .caller | .metadata => none

mutual
def Checker.node (c : Checker) (element : Option At) :
    Node → (warnings : List String) → Except FilterError (List String)
  | .and nodes, warnings => Checker.nodes c element nodes warnings
  | .or nodes, warnings => Checker.nodes c element nodes warnings
  | .not node, warnings => Checker.node c element node warnings
  | .path p ops, warnings =>
    match c.start element p.root with
    | none => .ok warnings
    | some start => do
      let (here, warnings) ← walk ft start p.segments warnings
      Checker.ops c here ops warnings
def Checker.nodes (c : Checker) (element : Option At) :
    List Node → (warnings : List String) → Except FilterError (List String)
  | [], warnings => .ok warnings
  | node :: rest, warnings => do
    let warnings ← Checker.node c element node warnings
    Checker.nodes c element rest warnings
/-- The `$any` operands of an operator object. -/
def Checker.ops (c : Checker) (here : At) : List Op → (warnings : List String) → Except FilterError (List String)
  | [], warnings => .ok warnings
  | op :: rest, warnings => do
    let warnings ← Checker.op c here op warnings
    Checker.ops c here rest warnings
def Checker.op (c : Checker) (here : At) : Op → (warnings : List String) → Except FilterError (List String)
  | .any operand, warnings =>
    match here.schema with
    -- A warning was given for the path of the array.
    | none => .ok warnings
    | some schema =>
      match itemsOf ft here.document schema with
      | .ok items => Checker.operand c { here with schema := some items } operand warnings
      | .error reason => Checker.operand c { here with schema := none } operand (elementWarnings operand here reason warnings)
  | _, warnings => .ok warnings
def Checker.operand (c : Checker) (element : At) :
    AnyOperand → (warnings : List String) → Except FilterError (List String)
  | .ops ops, warnings => Checker.ops c { element with display := element.display ++ "[*]" } ops warnings
  | .filter node, warnings => Checker.node c (some element) node warnings
end

end Text

end Iii.Schema

namespace Iii
open Filter Schema

/-- `check_schema_paths`: the warnings, or `INVALID_FILTER_PATH` for a path that a format rules out. -/
def Filter.checkSchemaPaths (ft : FloatText) (f : Filter) (requestFormat responseFormat : Option Value) :
    Except FilterError (List String) :=
  Checker.node ft ⟨requestFormat, responseFormat⟩ none f.node []

end Iii
