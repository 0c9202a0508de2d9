import Iii.Lib.Assoc
import Iii.Json.Arith
import Iii.Json.Text

/-! The engine's update operations (`update_ops.rs`).

An update is a list of operations on one JSON value. An operation that does not
apply leaves the value as it is and adds an error under its index; the others go on.
A field that does not exist starts as `{}`, and `using_missing_default` remembers
that nobody has written it yet: the operations at the root read it as missing.

A mutable reference into the value is modelled by the update made through it: what
the source does with the reference is a function on what it points to. -/
namespace Iii.Update
open Lib

/-! ### Operations and errors -/

inductive MergePath where
  | single (s : String)
  | segments (v : List String)

inductive UpdateOp where
  | set (path : String) (value : Option Value)
  | merge (path : Option MergePath) (value : Value)
  | increment (path : String) (by_ : I64)
  | decrement (path : String) (by_ : I64)
  | append (path : Option MergePath) (value : Value)
  | remove (path : String)

structure UpdateOpError where
  opIndex : Nat
  code : String
  message : String
  docUrl : Option String
  deriving DecidableEq

def maxPathDepth : Nat := 32
def maxSegmentBytes : Nat := 256
def maxValueDepth : Nat := 16
def maxValueKeys : Nat := 1024

def protoPollutionKeys : List String := ["__proto__", "constructor", "prototype"]

def docUrlBase : String := "https://iii.dev/docs/workers/iii-state#error-codes"

def err (opIndex : Nat) (code message : String) : UpdateOpError :=
  ⟨opIndex, code, message, some docUrlBase⟩

/-! ### Paths -/

/-- No path, `""` and `[]` all mean the root. -/
def mergePathSegments : Option MergePath → List String
  | none => []
  | some (.single s) => if s = "" then [] else [s]
  | some (.segments v) => v

def fieldPathSegments (path : String) : List String := if path = "" then [] else [path]

def pathErrorCode (opName reason : String) : String :=
  match opName, reason with
  | "merge", "too_deep" => "merge.path.too_deep"
  | "merge", "segment_too_long" => "merge.path.segment_too_long"
  | "merge", "empty_segment" => "merge.path.empty_segment"
  | "merge", "proto_polluted" => "merge.path.proto_polluted"
  | _, _ => opName ++ ".path." ++ reason

theorem pathErrorCode_eq (opName reason : String) :
    pathErrorCode opName reason = opName ++ ".path." ++ reason := by
  unfold pathErrorCode
  split <;> rfl

def validateSegment (opName : String) (opIndex : Nat) (seg : String) : Option UpdateOpError :=
  if seg = "" then
    some (err opIndex (pathErrorCode opName "empty_segment") "Path contains an empty segment")
  else if maxSegmentBytes < seg.utf8ByteSize then
    some (err opIndex (pathErrorCode opName "segment_too_long")
      ("Path segment of " ++ toString seg.utf8ByteSize ++ " bytes exceeds maximum of "
        ++ toString maxSegmentBytes))
  else if protoPollutionKeys.contains seg then
    some (err opIndex (pathErrorCode opName "proto_polluted")
      ("Path segment '" ++ seg ++ "' is not allowed (prototype pollution)."))
  else none

/-- The error it pushes, when it rejects the path. -/
def validateOpPath (opName : String) (opIndex : Nat) (segments : List String) : Option UpdateOpError :=
  if maxPathDepth < segments.length then
    some (err opIndex (pathErrorCode opName "too_deep")
      ("Path depth " ++ toString segments.length ++ " exceeds maximum of " ++ toString maxPathDepth))
  else segments.findSome? (validateSegment opName opIndex)

def pathLabel (path : String) : String := if path = "" then "root" else path

def pathLabelSegments (segments : List String) : String :=
  if segments.isEmpty then "root" else "[" ++ ", ".intercalate segments ++ "]"

def jsonTypeName : Value → String
  | .null => "null"
  | .bool _ => "boolean"
  | .number _ => "number"
  | .string _ => "string"
  | .array _ => "array"
  | .object _ => "object"

/-! ### Merging -/

/-- Nesting is counted by `json_depth`, which is `Json.depth`. -/
def validateMergeValue (opIndex : Nat) : Value → Option UpdateOpError
  | .object map =>
    if maxValueKeys < map.length then
      some (err opIndex "merge.value.too_many_keys"
        ("Merge value has " ++ toString map.length ++ " top-level keys, exceeds maximum of "
          ++ toString maxValueKeys))
    else
      match map.find? (fun m => protoPollutionKeys.contains m.1) with
      | some m => some (err opIndex "merge.value.proto_polluted"
          ("Merge value top-level key \"" ++ m.1 ++ "\" is a prototype-pollution sink"))
      | none =>
        if maxValueDepth < Json.depth (Json.object map) then
          some (err opIndex "merge.value.too_deep"
            ("Merge value JSON nesting depth " ++ toString (Json.depth (Json.object map))
              ++ " exceeds maximum of " ++ toString maxValueDepth))
        else none
  | _ => some (err opIndex "merge.value.not_an_object" "Merge value must be a JSON object")

abbrev Members : Type := List (String × Value)

/-- Anything but an object is replaced by a fresh one. -/
def asObject : Value → Value
  | .object m => .object m
  | _ => .object []

/-- The loop of `walk_or_create` from an intermediate `node`; `f` is what the caller does
to the target's map. -/
def walkNode {α : Type} (f : Members → Members × α) : Value → List String → Option (Value × α)
  | .object m, [] => some (.object (f m).1, (f m).2)
  | .object m, seg :: rest =>
    -- `map.entry(seg).or_insert_with(..)`, then the replacement of a non-object
    (walkNode f (asObject ((Assoc.get? m seg).getD (.object []))) rest).map
      fun (entry, a) => (.object (Assoc.insert m seg entry), a)
  | _, _ => none

def walkOrCreate {α : Type} (current : Value) (segments : List String) (f : Members → Members × α) :
    Option (Value × α) :=
  walkNode f (asObject current) segments

/-! ### Counting -/

/-- The part of `increment_number` and `decrement_number` after the `i64` attempt, for the
signed amount to add. -/
def addBeyondI64 (n : Number) (by_ : Int) (double : F64 → F64 → Option F64) (amount : Int) : Option Value :=
  match n with
  | .posInt u => (Number.ofU64 (u + by_)).map .number
  | .float f => ((F64.ofInt amount).bind (double f)).map (.number ∘ .float)
  | .negInt _ => none

def incrementNumber : Value → I64 → Option Value
  | .number n, by_ =>
    match n.asI64.bind (·.checkedAdd by_) with
    | some sum => some (.number (.ofI64 sum))
    | none => addBeyondI64 n by_.1 F64.add by_.1
  | _, _ => none

def decrementNumber : Value → I64 → Option Value
  | .number n, by_ =>
    match n.asI64.bind (·.checkedSub by_) with
    | some diff => some (.number (.ofI64 diff))
    | none => addBeyondI64 n (-by_.1) F64.sub by_.1
  | _, _ => none

def missingDecrementValue (by_ : I64) : Value :=
  match by_.checkedNeg with
  | some negated => .number (.ofI64 negated)
  | none => .number (.posInt ⟨2 ^ 63, by decide⟩)

/-! ### Appending -/

def initialAppendValue : Value → Value
  | .string s => .string s
  | value => .array [value]

/-- The new target, or the error pushed while the target stays. -/
def appendToTarget (target value : Value) (path : String) (opIndex : Nat) : Except UpdateOpError Value :=
  match target with
  | .array items => .ok (.array (items ++ [value]))
  | .string existing =>
    match value with
    | .string chunk => .ok (.string (existing ++ chunk))
    | _ => .error (err opIndex "append.type_mismatch"
        ("Expected string append value at path '" ++ pathLabel path ++ "', got "
          ++ jsonTypeName value ++ "."))
  | .null => .ok (initialAppendValue value)
  | _ => .error (err opIndex "append.type_mismatch"
      ("Cannot append at path '" ++ pathLabel path ++ "': target is " ++ jsonTypeName target
        ++ ", expected array, string, null, or missing field."))

/-- The last step of an append below the root, on the map that holds the leaf. -/
def appendLeaf (leafKey : String) (value missing : Value) (opIndex : Nat) (map : Members) :
    Members × List UpdateOpError :=
  match Assoc.get? map leafKey with
  | some existing =>
    match appendToTarget existing value leafKey opIndex with
    | .ok v => (Assoc.insert map leafKey v, [])
    | .error e => (map, [e])
  | none => (Assoc.insert map leafKey missing, [])

/-! ### The operations -/

structure State where
  current : Value
  usingMissingDefault : Bool
  errors : List UpdateOpError

def State.push (s : State) (errors : List UpdateOpError) : State := { s with errors := s.errors ++ errors }

/-- The field has been written. -/
def State.write (s : State) (v : Value) : State := { s with current := v, usingMissingDefault := false }

def applySet (opIndex : Nat) (path : String) (value : Option Value) (s : State) : State :=
  match validateOpPath "set" opIndex (fieldPathSegments path) with
  | some e => s.push [e]
  | none =>
    if path = "" then s.write (value.getD .null)
    else
      match s.current with
      | .object map => s.write (.object (Assoc.insert map path (value.getD .null)))
      | _ => s.push [err opIndex "set.target_not_object"
          ("Cannot set at path '" ++ pathLabel path ++ "': target is " ++ jsonTypeName s.current
            ++ ", expected object.")]

def applyMerge (opIndex : Nat) (path : Option MergePath) (value : Value) (s : State) : State :=
  match validateOpPath "merge" opIndex (mergePathSegments path) with
  | some e => s.push [e]
  | none =>
    match validateMergeValue opIndex value with
    | some e => s.push [e]
    | none =>
      match value with
      | .object newMap =>
        if (mergePathSegments path).isEmpty then
          match s.current with
          | .object existing => s.write (.object (Assoc.insertAll existing newMap))
          | _ => s
        else
          match walkOrCreate s.current (mergePathSegments path)
              (fun target => (Assoc.insertAll target newMap, ())) with
          | some (v, _) => s.write v
          | none => s
      | _ => s

/-- `increment` and `decrement` are one algorithm: the name in their errors, the update of
a number, and the value of a missing field. -/
structure Numeric where
  name : String
  update : Value → I64 → Option Value
  missing : I64 → Value

def Numeric.increment : Numeric := ⟨"increment", incrementNumber, fun by_ => .number (.ofI64 by_)⟩
def Numeric.decrement : Numeric := ⟨"decrement", decrementNumber, missingDecrementValue⟩

def Numeric.notNumber (op : Numeric) (opIndex : Nat) (path : String) (target : Value) : UpdateOpError :=
  err opIndex (op.name ++ ".not_number")
    ("Expected number at path '" ++ pathLabel path ++ "', got " ++ jsonTypeName target ++ ".")

def applyNumeric (op : Numeric) (opIndex : Nat) (path : String) (by_ : I64) (s : State) : State :=
  match validateOpPath op.name opIndex (fieldPathSegments path) with
  | some e => s.push [e]
  | none =>
    if path = "" then
      if s.usingMissingDefault then s.write (op.missing by_)
      else
        match op.update s.current by_ with
        | some updated => s.write updated
        | none => s.push [op.notNumber opIndex path s.current]
    else
      match s.current with
      | .object map =>
        match Assoc.get? map path with
        | some existing =>
          match op.update existing by_ with
          | some updated => s.write (.object (Assoc.insert map path updated))
          | none => s.push [op.notNumber opIndex path existing]
        | none => s.write (.object (Assoc.insert map path (op.missing by_)))
      | _ => s.push [err opIndex (op.name ++ ".target_not_object")
          ("Cannot " ++ op.name ++ " at path '" ++ pathLabel path ++ "': target is "
            ++ jsonTypeName s.current ++ ", expected object.")]

def applyAppend (opIndex : Nat) (path : Option MergePath) (value : Value) (s : State) : State :=
  match validateOpPath "append" opIndex (mergePathSegments path) with
  | some e => s.push [e]
  | none =>
    match mergePathSegments path with
    | [] =>
      match appendToTarget (if s.usingMissingDefault then .null else s.current) value "root" opIndex with
      | .ok v => s.write v
      | .error e => s.push [e]
    | seg :: rest =>
      match s.current with
      | .object map =>
        if rest.isEmpty then
          let (map', errors) := appendLeaf seg value (initialAppendValue value) opIndex map
          (s.push errors).write (.object map')
        else
          let leafKey := (seg :: rest).getLast (by simp)
          match walkOrCreate s.current (seg :: rest).dropLast
              (appendLeaf leafKey value (.array [value]) opIndex) with
          | some (v, errors) => (s.push errors).write v
          | none => s
      | _ => s.push [err opIndex "append.target_not_object"
          ("Cannot append at path '" ++ pathLabelSegments (seg :: rest) ++ "': target is "
            ++ jsonTypeName s.current ++ ", expected object.")]

def applyRemove (opIndex : Nat) (path : String) (s : State) : State :=
  match validateOpPath "remove" opIndex (fieldPathSegments path) with
  | some e => s.push [e]
  | none =>
    if path = "" then s.write .null
    else
      match s.current with
      | .object map => s.write (.object (Assoc.erase map path))
      | _ => s.push [err opIndex "remove.target_not_object"
          ("Cannot remove at path '" ++ pathLabel path ++ "': target is " ++ jsonTypeName s.current
            ++ ", expected object.")]

def applyOp (opIndex : Nat) : UpdateOp → State → State
  | .set path value => applySet opIndex path value
  | .merge path value => applyMerge opIndex path value
  | .increment path by_ => applyNumeric .increment opIndex path by_
  | .decrement path by_ => applyNumeric .decrement opIndex path by_
  | .append path value => applyAppend opIndex path value
  | .remove path => applyRemove opIndex path

/-- The loop over `ops.iter().enumerate()`, from index `opIndex` on. -/
def applyOps : Nat → List UpdateOp → State → State
  | _, [], s => s
  | opIndex, op :: rest, s => applyOps (opIndex + 1) rest (applyOp opIndex op s)

def State.start (oldValue : Option Value) : State :=
  ⟨oldValue.getD (.object []), oldValue.isNone, []⟩

def applyUpdateOps (oldValue : Option Value) (ops : List UpdateOp) : Value × List UpdateOpError :=
  let s := applyOps 0 ops (.start oldValue)
  (s.current, s.errors)

end Iii.Update
