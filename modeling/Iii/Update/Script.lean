import Iii.Update.Ops

/-! `JSON_UPDATE_SCRIPT` (`workers/redis.rs`): the same operations in Lua, inside Redis.

A Lua table is a sequence and a set of string fields; the script never stores under
any other key. `cjson` turns a JSON array into a sequence and an object into fields,
so that `[]` and `{}` are one table, and `null` into `cjson.null`, which is not `nil`.
A function that would raise a Lua error returns `none`. Assigning into a table that the
value holds is modelled by the value with that table changed: no table is reachable
twice, since every operation brings its own. -/
namespace Iii.Update.Script
open Lib

inductive LuaValue where
  | nil
  | boolean (b : Bool)
  /-- `none` is an infinity or not a number. -/
  | number (x : Option F64)
  | string (s : String)
  /-- `cjson.null`. -/
  | null
  | table (items : List LuaValue) (fields : List (String × LuaValue))

namespace LuaValue

def isNil : LuaValue → Bool
  | .nil => true
  | _ => false

def truthy : LuaValue → Bool
  | .nil | .boolean false => false
  | _ => true

/-- `type(v) == 'table' and v ~= cjson.null`. -/
def isTable : LuaValue → Bool
  | .table _ _ => true
  | _ => false

/-- `t[key]`; the keys the script uses are strings. -/
def index : LuaValue → LuaValue → LuaValue
  | .table _ fields, .string key => (Assoc.get? fields key).getD .nil
  | _, _ => .nil

/-- `t[key] = v`: assigning `nil` removes. -/
def setIndex : LuaValue → LuaValue → LuaValue → LuaValue
  | .table items fields, .string key, .nil => .table items (Assoc.erase fields key)
  | .table items fields, .string key, v => .table items (Assoc.insert fields key v)
  | t, _, _ => t

/-- `{v}`. -/
def singleton : LuaValue → LuaValue
  | .nil => .table [] []
  | v => .table [v] []

/-- `table.insert(t, v)`. -/
def insertLast : LuaValue → LuaValue → LuaValue
  | .table items fields, v => .table (items ++ [v]) fields
  | t, _ => t

/-- `x + y`, an error on anything but numbers. -/
def add : LuaValue → LuaValue → Option LuaValue
  | .number x, .number y => some (.number (x.bind fun a => y.bind a.add))
  | _, _ => none

def sub : LuaValue → LuaValue → Option LuaValue
  | .number x, .number y => some (.number (x.bind fun a => y.bind a.sub))
  | _, _ => none

/-- `-x`. -/
def minus : LuaValue → Option LuaValue
  | .number x => some (.number (x.map F64.negate))
  | _ => none

end LuaValue

/-! ### What Redis provides -/

/-- `cjson` and the hash field: the text a stored value has, `json_decode` of the text of a
value, and the number that the text of a double spells. -/
structure Redis where
  text : Value → String
  decode : Value → LuaValue
  number : F64 → Number

namespace Redis
variable (redis : Redis)

/-- `redis.call('HGET', key, field)`: `false` stands for a missing field. -/
def hget : Option Value → LuaValue
  | none => .boolean false
  | some v => .string (redis.text v)

mutual
/-- `json_encode`, up to the text: a table with fields is an object, and so is `{}`. -/
def encode : LuaValue → Option Value
  | .nil => some .null
  | .null => some .null
  | .boolean b => some (.bool b)
  | .number x => x.map fun f => .number (redis.number f)
  | .string s => some (.string s)
  | .table [] fields => (encodeFields fields).map .object
  | .table (v :: items) [] => (encodeItems (v :: items)).map .array
  | .table (v :: items) (m :: fields) => do
    let values ← encodeItems (v :: items)
    let members ← encodeFields (m :: fields)
    return .object ((values.zipIdx 1).map (fun (v, i) => (toString i, v)) ++ members)
def encodeItems : List LuaValue → Option (List Value)
  | [] => some []
  | v :: rest => do return (← encode v) :: (← encodeItems rest)
def encodeFields : List (String × LuaValue) → Option (List (String × Value))
  | [] => some []
  | m :: rest => do return (m.1, ← encode m.2) :: (← encodeFields rest)
end

end Redis

/-! ### The operations as the script receives them -/

def mergePathJson : Option MergePath → List (String × Value)
  | none => []
  | some (.single s) => [("path", .string s)]
  | some (.segments v) => [("path", .array (v.map .string))]

/-- `serde_json::to_string(&op)`, up to the text. -/
def opJson : UpdateOp → Value
  | .set path value => .object [("type", .string "set"), ("path", .string path), ("value", value.getD .null)]
  | .merge path value => .object ([("type", .string "merge")] ++ mergePathJson path ++ [("value", value)])
  | .increment path by_ =>
    .object [("type", .string "increment"), ("path", .string path), ("by", .number (.ofI64 by_))]
  | .decrement path by_ =>
    .object [("type", .string "decrement"), ("path", .string path), ("by", .number (.ofI64 by_))]
  | .append path value => .object ([("type", .string "append")] ++ mergePathJson path ++ [("value", value)])
  | .remove path => .object [("type", .string "remove"), ("path", .string path)]

/-! ### Paths -/

def getPath : LuaValue → LuaValue
  | .table items fields =>
    match items with
    | v :: _ => if v.truthy then v else .table items fields
    | [] =>
      let zero := (LuaValue.table items fields).index (.string "0")
      if zero.truthy then zero else .table items fields
  | path => path

def mergePathSegments : LuaValue → List LuaValue
  | .string s => if s = "" then [] else [.string s]
  | .table items _ => items
  | _ => []

/-- `path == '' or path == nil`. -/
def isRoot : LuaValue → Bool
  | .nil => true
  | .string s => s = ""
  | _ => false

def fieldPathSegments (path : LuaValue) : List LuaValue := if isRoot path then [] else [path]

def pathErrorCode (opName reason : String) : String := opName ++ ".path." ++ reason

/-- A path or a segment in a message; what gets that far is a string. -/
def label : LuaValue → String
  | .string s => s
  | _ => ""

def pathLabel (path : LuaValue) : String := if isRoot path then "root" else label path

def pathLabelSegments (segments : List LuaValue) : String :=
  if segments.isEmpty then "root" else "[" ++ ", ".intercalate (segments.map label) ++ "]"

def validateSegment (opName : String) (opIndex : Nat) : LuaValue → Option UpdateOpError
  | .string seg =>
    if seg = "" then
      some (err opIndex (pathErrorCode opName "empty_segment") "Path contains an empty or non-string segment")
    else if maxSegmentBytes < seg.utf8ByteSize then
      some (err opIndex (pathErrorCode opName "segment_too_long")
        ("Path segment of " ++ toString seg.utf8ByteSize ++ " bytes exceeds maximum of "
          ++ toString maxSegmentBytes))
    else if protoPollutionKeys.contains seg then
      some (err opIndex (pathErrorCode opName "proto_polluted")
        ("Path segment '" ++ seg ++ "' is not allowed (prototype pollution)."))
    else none
  | _ => some (err opIndex (pathErrorCode opName "empty_segment")
      "Path contains an empty or non-string segment")

def validateOpPath (opName : String) (opIndex : Nat) (segments : List LuaValue) : Option UpdateOpError :=
  if maxPathDepth < segments.length then
    some (err opIndex (pathErrorCode opName "too_deep")
      ("Path depth " ++ toString segments.length ++ " exceeds maximum of " ++ toString maxPathDepth))
  else segments.findSome? (validateSegment opName opIndex)

/-! ### Values -/

def jsonTypeName : LuaValue → String
  | .null => "null"
  | .boolean _ => "boolean"
  | .number _ => "number"
  | .string _ => "string"
  | .table [] _ => "object"
  | .table (_ :: _) _ => "array"
  | .nil => "nil"

mutual
def jsonDepth : LuaValue → Nat
  | .table items fields => 1 + max (jsonDepthItems items) (jsonDepthFields fields)
  | _ => 0
def jsonDepthItems : List LuaValue → Nat
  | [] => 0
  | v :: rest => max (jsonDepth v) (jsonDepthItems rest)
def jsonDepthFields : List (String × LuaValue) → Nat
  | [] => 0
  | m :: rest => max (jsonDepth m.2) (jsonDepthFields rest)
end

def notAnObject (opIndex : Nat) : UpdateOpError :=
  err opIndex "merge.value.not_an_object" "Merge value must be a JSON object"

/-- The loop over `pairs(value)`, `keyCount` keys in. -/
def checkKeys (opIndex : Nat) : Nat → List (String × LuaValue) → Option UpdateOpError
  | _, [] => none
  | keyCount, m :: rest =>
    if protoPollutionKeys.contains m.1 then
      some (err opIndex "merge.value.proto_polluted"
        ("Merge value top-level key \"" ++ m.1 ++ "\" is a prototype-pollution sink"))
    else if maxValueKeys < keyCount + 1 then
      some (err opIndex "merge.value.too_many_keys"
        ("Merge value has more than " ++ toString maxValueKeys ++ " top-level keys"))
    else checkKeys opIndex (keyCount + 1) rest

def validateMergeValue (opIndex : Nat) : LuaValue → Option UpdateOpError
  | .table [] fields =>
    match checkKeys opIndex 0 fields with
    | some e => some e
    | none =>
      if maxValueDepth < jsonDepth (.table [] fields) then
        some (err opIndex "merge.value.too_deep"
          ("Merge value JSON nesting depth exceeds maximum of " ++ toString maxValueDepth))
      else none
  -- the first key of a sequence is the number 1
  | .table (_ :: _) _ => some (notAnObject opIndex)
  | _ => some (notAnObject opIndex)

/-- `for k, v in pairs(new) do target[k] = v end`. -/
def assignAll : LuaValue → LuaValue → LuaValue
  | .table items fields, .table _ new => .table items (Assoc.insertAll fields new)
  | target, _ => target

def isObjectShape : LuaValue → Bool
  | .table [] _ => true
  | _ => false

/-- The loop of `walk_or_create`; `f` is what the caller does to the table it returns. -/
def walkNode {α : Type} (f : LuaValue → LuaValue × α) : LuaValue → List LuaValue → LuaValue × α
  | node, [] => f node
  | node, seg :: rest =>
    let next := if isObjectShape (node.index seg) then node.index seg else .table [] []
    let result := walkNode f next rest
    (node.setIndex seg result.1, result.2)

def walkOrCreate {α : Type} (root : LuaValue) (segments : List LuaValue) (f : LuaValue → LuaValue × α) :
    Option (LuaValue × α) :=
  if isObjectShape root then some (walkNode f root segments) else none

def initialAppendValue : LuaValue → LuaValue
  | .string s => .string s
  | v => v.singleton

/-- Every key a positive integer and as many as the largest: `{}` passes. -/
def isArray : LuaValue → Bool
  | .table _ fields => fields.isEmpty
  | _ => false

def appendToTarget (target value : LuaValue) (path : String) (opIndex : Nat) : Except UpdateOpError LuaValue :=
  match target with
  | .nil | .null => .ok (initialAppendValue value)
  | .string existing =>
    match value with
    | .string chunk => .ok (.string (existing ++ chunk))
    | _ => .error (err opIndex "append.type_mismatch"
        ("Expected string append value at path '" ++ pathLabel (.string path) ++ "', got "
          ++ jsonTypeName value ++ "."))
  | _ =>
    if isArray target then .ok (target.insertLast value)
    else .error (err opIndex "append.type_mismatch"
      ("Cannot append at path '" ++ pathLabel (.string path) ++ "': target is " ++ jsonTypeName target
        ++ ", expected array, string, null, or missing field."))

/-- The last step of an append below the root, on the table that holds the leaf. -/
def appendLeaf (leafKey value missing : LuaValue) (opIndex : Nat) (parent : LuaValue) :
    LuaValue × List UpdateOpError :=
  match parent.index leafKey with
  | .nil | .null => (parent.setIndex leafKey missing, [])
  | existing =>
    match appendToTarget existing value (label leafKey) opIndex with
    | .ok v => (parent.setIndex leafKey v, [])
    | .error e => (parent, [e])

/-! ### The branches of the loop -/

structure State where
  current : LuaValue
  usingMissingDefault : Bool
  errors : List UpdateOpError

def State.push (s : State) (errors : List UpdateOpError) : State := { s with errors := s.errors ++ errors }

def State.write (s : State) (v : LuaValue) : State := { s with current := v, usingMissingDefault := false }

def applySet (opIndex : Nat) (op : LuaValue) (s : State) : Option State :=
  let path := getPath (op.index (.string "path"))
  let value := op.index (.string "value")
  match validateOpPath "set" opIndex (fieldPathSegments path) with
  | some e => some (s.push [e])
  | none =>
    if isRoot path && !value.isNil then some (s.write value)
    else if s.current.isTable then
      if path.isNil then none
      else some (s.write (s.current.setIndex path (if value.isNil then .null else value)))
    else some (s.push [err opIndex "set.target_not_object"
      ("Cannot set at path '" ++ pathLabel path ++ "': target is " ++ jsonTypeName s.current
        ++ ", expected object.")])

def applyMerge (opIndex : Nat) (op : LuaValue) (s : State) : Option State :=
  let segments := mergePathSegments (op.index (.string "path"))
  let value := op.index (.string "value")
  match validateOpPath "merge" opIndex segments with
  | some e => some (s.push [e])
  | none =>
    match validateMergeValue opIndex value with
    | some e => some (s.push [e])
    | none =>
      if segments.isEmpty then
        if s.current.isTable then some (s.write (assignAll s.current value)) else some s
      else
        let current := if s.current.isTable then s.current else .table [] []
        match walkOrCreate current segments (fun target => (assignAll target value, ())) with
        | some (v, _) => some (s.write v)
        | none => some { s with current := current }

structure Numeric where
  name : String
  update : LuaValue → LuaValue → Option LuaValue
  missing : LuaValue → Option LuaValue

def Numeric.increment : Numeric := ⟨"increment", LuaValue.add, some⟩
def Numeric.decrement : Numeric := ⟨"decrement", LuaValue.sub, LuaValue.minus⟩

def Numeric.notNumber (op : Numeric) (opIndex : Nat) (path target : LuaValue) : UpdateOpError :=
  err opIndex (op.name ++ ".not_number")
    ("Expected number at path '" ++ pathLabel path ++ "', got " ++ jsonTypeName target ++ ".")

def applyNumeric (kind : Numeric) (opIndex : Nat) (op : LuaValue) (s : State) : Option State :=
  let path := getPath (op.index (.string "path"))
  let by_ := op.index (.string "by")
  match validateOpPath kind.name opIndex (fieldPathSegments path) with
  | some e => some (s.push [e])
  | none =>
    if isRoot path then
      if s.usingMissingDefault then (kind.missing by_).map s.write
      else
        match s.current with
        | .number x => (kind.update (.number x) by_).map s.write
        | current => some (s.push [kind.notNumber opIndex path current])
    else if s.current.isTable then
      match s.current.index path with
      | .nil => (kind.missing by_).map fun v => s.write (s.current.setIndex path v)
      | .number x => (kind.update (.number x) by_).map fun v => s.write (s.current.setIndex path v)
      | val => some (s.push [kind.notNumber opIndex path val])
    else some (s.push [err opIndex (kind.name ++ ".target_not_object")
      ("Cannot " ++ kind.name ++ " at path '" ++ pathLabel path ++ "': target is "
        ++ jsonTypeName s.current ++ ", expected object.")])

def applyAppend (opIndex : Nat) (op : LuaValue) (s : State) : Option State :=
  let segments := mergePathSegments (op.index (.string "path"))
  let value := op.index (.string "value")
  match validateOpPath "append" opIndex segments with
  | some e => some (s.push [e])
  | none =>
    match segments with
    | [] =>
      match appendToTarget (if s.usingMissingDefault then .null else s.current) value "root" opIndex with
      | .ok v => some (s.write v)
      | .error e => some (s.push [e])
    | seg :: rest =>
      if isObjectShape s.current then
        if rest.isEmpty then
          let (current, errors) := appendLeaf seg value (initialAppendValue value) opIndex s.current
          some ((s.push errors).write current)
        else
          let leafKey := (seg :: rest).getLast (by simp)
          match walkOrCreate s.current (seg :: rest).dropLast
              (appendLeaf leafKey value value.singleton opIndex) with
          | some (v, errors) => some ((s.push errors).write v)
          | none => some s
      else some (s.push [err opIndex "append.target_not_object"
        ("Cannot append at path '" ++ pathLabelSegments (seg :: rest) ++ "': target is "
          ++ jsonTypeName s.current ++ ", expected object.")])

def applyRemove (opIndex : Nat) (op : LuaValue) (s : State) : Option State :=
  let path := getPath (op.index (.string "path"))
  match validateOpPath "remove" opIndex (fieldPathSegments path) with
  | some e => some (s.push [e])
  | none =>
    if isRoot path then some (s.write .null)
    else if s.current.isTable then some (s.write (s.current.setIndex path .nil))
    else some (s.push [err opIndex "remove.target_not_object"
      ("Cannot remove at path '" ++ pathLabel path ++ "': target is " ++ jsonTypeName s.current
        ++ ", expected object.")])

def applyOp (opIndex : Nat) (op : LuaValue) (s : State) : Option State :=
  match op.index (.string "type") with
  | .string "set" => applySet opIndex op s
  | .string "merge" => applyMerge opIndex op s
  | .string "increment" => applyNumeric .increment opIndex op s
  | .string "decrement" => applyNumeric .decrement opIndex op s
  | .string "append" => applyAppend opIndex op s
  | .string "remove" => applyRemove opIndex op s
  | _ => some s

def applyOps : Nat → List LuaValue → State → Option State
  | _, [], s => some s
  | opIndex, op :: rest, s => (applyOp opIndex op s).bind (applyOps (opIndex + 1) rest)

/-- `ipairs(ops)`. -/
def ipairs : LuaValue → List LuaValue
  | .table items _ => items
  | _ => []

/-- The whole script: the value it stores and the errors it returns. -/
def jsonUpdateScript (redis : Redis) (stored : Option Value) (ops : List UpdateOp) :
    Option (Value × List UpdateOpError) := do
  let oldValueStr := redis.hget stored
  let oldValue :=
    if oldValueStr.truthy then redis.decode (stored.getD (.object [])) else .table [] []
  let ops := redis.decode (.array (ops.map opJson))
  let current := redis.decode (← redis.encode oldValue)
  let usingMissingDefault := oldValueStr.isNil
  let s ← applyOps 0 (ipairs ops) ⟨current, usingMissingDefault, []⟩
  let newValue ← redis.encode s.current
  return (newValue, s.errors)

end Iii.Update.Script
