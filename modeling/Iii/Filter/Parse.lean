import Iii.Filter.Eval
import Mathlib.Data.List.Destutter
import Mathlib.Data.Prod.Lex

/-! Validation and normalization in one pass (`parse.rs`).

Every filter object is parsed bottom-up into its compiled node and its normal form
at once. `$and` is flattened into the enclosing filter with an explicit stack, the
clauses of a filter are sorted by key and then by the canonical JSON of their
operand, exact duplicates are dropped, and what is left is wrapped as
`{"$and": [{clause}, ...]}`.

The recursion is bounded by the filter depth, so the parsers of one depth are a
`Level` built from the parsers of the next: `level n` is the one at depth
`maxDepth + 1 - n`. -/
namespace Iii.Filter

/-- The node budget is the state: operators, `$or`s and `$not`s taken so far. -/
abbrev Parse := StateT Nat (Except FilterError)

/-- `NodeBudget::take`. -/
def take : Parse Unit := do
  let used ← get
  set (used + 1)
  if used + 1 > maxNodes then
    throw (.invalid ("more than " ++ toString maxNodes ++ " operator / clause nodes"))
  else pure ()

def kind : Value → String
  | .null => "null"
  | .bool _ => "a boolean"
  | .number _ => "a number"
  | .string _ => "a string"
  | .array _ => "an array"
  | .object _ => "an object"

/-! ### Literals -/

section Parser
variable (ft : FloatText)

def checkNumber (path name : String) (n : Number) : Except FilterError Unit :=
  if n.inRange then .ok ()
  else .error (.invalid ("`" ++ path ++ "`: `" ++ name ++ "` holds the number "
    ++ String.ofList (writeNumber ft n) ++ ", outside ±2^53"))

def literalTooDeep (path name : String) : FilterError :=
  .invalid ("`" ++ path ++ "`: `" ++ name ++ "` nests a literal deeper than "
    ++ toString maxLiteralDepth ++ " arrays / objects")

mutual
/-- The `walk` of `check_literal`. -/
def walkLiteral (path name : String) (level : Nat) : Value → Except FilterError Unit
  | .number n => checkNumber ft path name n
  | .array items =>
    if level > maxLiteralDepth then .error (literalTooDeep path name)
    else walkItems path name (level + 1) items
  | .object map =>
    if level > maxLiteralDepth then .error (literalTooDeep path name)
    else walkMembers path name (level + 1) map
  | _ => .ok ()
def walkItems (path name : String) (level : Nat) : List Value → Except FilterError Unit
  | [] => .ok ()
  | j :: rest => do
    walkLiteral path name level j
    walkItems path name level rest
def walkMembers (path name : String) (level : Nat) : List (String × Value) → Except FilterError Unit
  | [] => .ok ()
  | m :: rest => do
    walkLiteral path name level m.2
    walkMembers path name level rest
end

def checkLiteral (path name : String) (value : Value) : Except FilterError Unit :=
  walkLiteral ft path name 1 value

/-! ### Operators -/

/-- The parsers at one filter depth. -/
structure Level where
  parseFilter : Value → Bool → Parse (Node × Value)
  parseOperators : String → List (String × Value) → Parse (List Op × Value)

/-- What a key of an operator object names. -/
inductive OpName where
  | eq | ne | inSet | nin | gt | gte | lt | lte | existsIs | hasPrefix | any | combinator | unknown
  deriving DecidableEq

def opName (name : String) : OpName :=
  if name = "$eq" then .eq
  else if name = "$ne" then .ne
  else if name = "$in" then .inSet
  else if name = "$nin" then .nin
  else if name = "$gt" then .gt
  else if name = "$gte" then .gte
  else if name = "$lt" then .lt
  else if name = "$lte" then .lte
  else if name = "$exists" then .existsIs
  else if name = "$prefix" then .hasPrefix
  else if name = "$any" then .any
  else if name = "$and" ∨ name = "$or" ∨ name = "$not" then .combinator
  else .unknown

/-- `is_value_operator`. -/
def isValueOperator (name : String) : Bool :=
  match opName name with
  | .combinator | .unknown => false
  | _ => true

/-- An operator whose operand is not of the type it takes. -/
def wrong (path name expected : String) (operand : Value) : FilterError :=
  .invalid ("`" ++ path ++ "`: `" ++ name ++ "` takes " ++ expected ++ ", found " ++ kind operand)

/-- The operand of an ordering operator. -/
def parseBound (path name : String) (operand : Value) : Except FilterError Bound :=
  match operand with
  | .number n => do
    checkNumber ft path name n
    pure (.num n.asF64)
  | .string s => pure (.str s)
  | _ => throw (wrong path name "a number or a string" operand)

/-- The items of `$in` and `$nin`. -/
def parseSet (path name : String) (operand : Value) : Except FilterError (List Value) :=
  match operand with
  | .array items =>
    if items.length > maxSetItems then
      throw (.invalid ("`" ++ path ++ "`: `" ++ name ++ "` has " ++ toString items.length
        ++ " items (limit " ++ toString maxSetItems ++ ")"))
    else do
      items.forM (checkLiteral ft path name)
      pure items
  | _ => throw (wrong path name "an array" operand)

/-- `$any` takes an operator object (all keys are value operators) or a filter over
the element; `{}` is the empty filter. -/
def parseAny (next : Level) (path : String) (operand : Value) : Parse (Op × Value) :=
  match operand with
  | .object map =>
    if !map.isEmpty && map.all (fun m => isValueOperator m.1) then do
      let (ops, normalized) ← next.parseOperators path map
      pure (.any (.ops ops), normalized)
    else do
      let (node, normalized) ← next.parseFilter operand true
      pure (.any (.filter node), normalized)
  | _ => throw (.invalid ("`" ++ path
      ++ "`: `$any` takes an operator object or a filter over `@`, found " ++ kind operand))

/-- Every operator but `$any`, whose operand is kept as written. -/
def parseLeaf (path name : String) (operand : Value) : Except FilterError Op :=
  match opName name with
  | .eq => do
    checkLiteral ft path name operand
    pure (.eq operand)
  | .ne => do
    checkLiteral ft path name operand
    pure (.ne operand)
  | .inSet => .inSet <$> parseSet ft path name operand
  | .nin => .nin <$> parseSet ft path name operand
  | .gt => .gt <$> parseBound ft path name operand
  | .gte => .gte <$> parseBound ft path name operand
  | .lt => .lt <$> parseBound ft path name operand
  | .lte => .lte <$> parseBound ft path name operand
  | .existsIs =>
    match operand with
    | .bool b => pure (.existsIs b)
    | _ => throw (wrong path name "a boolean" operand)
  | .hasPrefix =>
    match operand with
    | .string s => pure (.hasPrefix s)
    | _ => throw (wrong path name "a string" operand)
  | .any | .combinator => throw (.invalid ("`" ++ path ++ "`: `" ++ name
      ++ "` combines filters and is not a value operator"))
  | .unknown => throw (.invalid ("`" ++ path ++ "`: unknown operator `" ++ name ++ "`"))

def parseOperator (next : Level) (path name : String) (operand : Value) : Parse (Op × Value) :=
  if opName name = .any then parseAny next path operand
  else do
    let op ← (parseLeaf ft path name operand : Except FilterError Op)
    pure (op, operand)

/-- The operators of an operator object, sorted by name. The names of a map are
distinct, so inserting them in this order gives exactly these members. -/
def parseOperators (next : Level) (path : String) (map : List (String × Value)) :
    Parse (List Op × Value) := do
  let parsed ← map.mapM fun m => do
    take
    let r ← parseOperator ft next path m.1 m.2
    pure (m.1, r)
  let sorted := parsed.insertionSort keyLe
  pure (sorted.map (·.2.1), .object (sorted.map fun e => (e.1, e.2.2)))

def shorthand (path : String) : FilterError :=
  .invalid ("`" ++ path ++ "`: expected an operator object such as \x7b\"$eq\": ...\x7d; "
    ++ "literal values are not allowed")

def startsWithDollar (key : String) : Bool := key.toList.head? = some '$'

/-- The checks of `parse_operator_object` in front of `parse_operators`. -/
def operatorMap (path : String) (value : Value) : Except FilterError (List (String × Value)) :=
  match value with
  | .object map =>
    if map.isEmpty then .error (.invalid ("`" ++ path ++ "`: empty operator object"))
    else if map.any (fun m => !startsWithDollar m.1) then .error (shorthand path)
    else .ok map
  | _ => .error (shorthand path)

/-! ### Clauses -/

/-- A normalized clause: `{ key: operand }`. -/
structure Clause where
  key : String
  operand : Value
  /-- Compact JSON of `operand` with object keys sorted, the tie-breaker when keys are equal. -/
  operandJson : String
  node : Node

def Clause.new (key : String) (operand : Value) (node : Node) : Clause :=
  ⟨key, operand, String.ofList (canonical ft operand), node⟩

/-- By key, then by operand. -/
def Clause.order (c : Clause) : List Nat ×ₗ List Nat := toLex (utf8 c.key, utf8 c.operandJson)

def Clause.le (a b : Clause) : Prop := a.order ≤ b.order

instance : DecidableRel Clause.le := fun a b => inferInstanceAs (Decidable (a.order ≤ b.order))

/-- The test of `dedup_by`. -/
def Clause.same (a b : Clause) : Prop := a.key = b.key ∧ a.operandJson = b.operandJson

instance : DecidableRel Clause.same := fun a b =>
  inferInstanceAs (Decidable (a.key = b.key ∧ a.operandJson = b.operandJson))

/-- Sorts, deduplicates and wraps the clauses of one filter. -/
def finish (clauses : List Clause) : Node × Value :=
  match (clauses.insertionSort Clause.le).destutter (fun a b => ¬ Clause.same a b) with
  | [] => (.and [], .object [])
  | kept => (.and (kept.map (·.node)),
      .object [("$and", .array (kept.map fun c => .object [(c.key, c.operand)]))])

def filterList (name : String) (value : Value) : Except FilterError (List Value) :=
  match value with
  | .array [] => .error (.invalid ("`" ++ name ++ "` takes a non-empty array of filters"))
  | .array items => .ok items
  | other => .error (.invalid ("`" ++ name ++ "` takes an array of filters, found " ++ kind other))

/-- What a key of a filter object is. -/
inductive ClauseKey where
  | and | or | not | operator | unknown | path
  deriving DecidableEq

def clauseKey (key : String) : ClauseKey :=
  if key = "$and" then .and
  else if key = "$or" then .or
  else if key = "$not" then .not
  else if isValueOperator key then .operator
  else if startsWithDollar key then .unknown
  else .path

/-- One key of a filter object other than `$and`. -/
def parseClause (next : Level) (inAny : Bool) (key : String) (value : Value) : Parse Clause :=
  match clauseKey key with
  | .and => throw (.invalid "")
  | .or => do
    take
    let items ← (filterList "$or" value : Except FilterError (List Value))
    let parsed ← items.mapM fun item => next.parseFilter item inAny
    pure (Clause.new ft "$or" (.array (parsed.map (·.2))) (.or (parsed.map (·.1))))
  | .not => do
    take
    match value with
    | .object _ => do
      let (node, normalized) ← next.parseFilter value inAny
      pure (Clause.new ft "$not" normalized (.not node))
    | _ => throw (.invalid ("`$not` takes a filter object, found " ++ kind value))
  | .operator => throw (.invalid ("`" ++ key ++ "` needs a path: write \x7b\"<path>\": \x7b\"" ++ key
      ++ "\": ...\x7d\x7d"))
  | .unknown => throw (.invalid ("unknown operator `" ++ key
      ++ "` (a filter holds paths, `$and`, `$or` and `$not`)"))
  | .path => do
    let path ← (Path.parse key inAny : Except FilterError Path)
    let map ← (operatorMap key value : Except FilterError (List (String × Value)))
    let (ops, operand) ← parseOperators ft next key map
    pure (Clause.new ft key operand (.path path ops))

/-- The keys of one object: `$and` puts its filters on the stack, every other key
is a clause. -/
def collectEntries (next : Level) (inAny : Bool) :
    List (String × Value) → (pending : List Value) → (out : List Clause) →
      Parse (List Value × List Clause)
  | [], pending, out => pure (pending, out)
  | (key, value) :: rest, pending, out =>
    if key = "$and" then do
      let items ← (filterList "$and" value : Except FilterError (List Value))
      collectEntries next inAny rest (items ++ pending) out
    else do
      let clause ← parseClause ft next inAny key value
      collectEntries next inAny rest pending (out ++ [clause])

/-- `collect_clauses`: the stack of filters still to read. Every pass pops one
filter and pushes only values inside it, so the number of values in the source
bounds the passes. -/
def collectClauses (next : Level) (inAny : Bool) :
    (passes : Nat) → (pending : List Value) → (out : List Clause) → Parse (List Clause)
  | _, [], out => pure out
  | 0, _ :: _, _ => throw (.invalid "")
  | passes + 1, src :: pending, out =>
    match src with
    | .object map => do
      let r ← collectEntries ft next inAny map pending out
      collectClauses next inAny passes r.1 r.2
    | _ => throw (.invalid ("a filter must be a JSON object, found " ++ kind src))

/-- Parses one filter object into its compiled node and normal form. -/
def parseFilter (next : Level) (src : Value) (inAny : Bool) : Parse (Node × Value) := do
  let clauses ← collectClauses ft next inAny src.count [src] []
  pure (finish clauses)

def tooDeep : FilterError :=
  .invalid ("filters nested deeper than " ++ toString maxDepth ++ " levels")

/-- The parsers with `n` filter depths left, this one included. With none left,
`collect_clauses` refuses a filter and `parse_any` refuses both forms of its operand. -/
def level : Nat → Level
  | 0 => ⟨fun _ _ => throw tooDeep, fun _ _ => throw tooDeep⟩
  | n + 1 => ⟨parseFilter ft (level n), parseOperators ft (level n)⟩

/-! ### The checks in front -/

/-- `ensure_encoded_size`: containers are walked with an explicit stack, each
spending its own bytes; only leaves are written. The last value pushed is read first. -/
def measure : (passes : Nat) → (pending : List Value) → (budget : Nat) → Option Nat
  | _, [], budget => some budget
  | 0, _ :: _, _ => none
  | passes + 1, value :: pending, budget =>
    let spend (bytes : Nat) (pending : List Value) : Option Nat :=
      if bytes ≤ budget then measure passes pending (budget - bytes) else none
    match value with
    | .array items => spend (2 + (items.length - 1)) (items.reverse ++ pending)
    | .object map =>
      spend (2 + (map.length - 1) + map.length
          + (map.map fun m => (utf8 (String.ofList (writeString m.1))).length).sum)
        ((map.map (·.2)).reverse ++ pending)
    | leaf => spend (utf8 (String.ofList (write ft leaf))).length pending

def ensureEncodedSize (value : Value) : Except FilterError Unit :=
  match measure ft value.count [value] maxEncodedBytes with
  | some _ => .ok ()
  | none => .error (.invalid ("the filter encodes to more than " ++ toString maxEncodedBytes ++ " bytes"))

/-- `ensure_json_depth`: the stack holds each value with its level. -/
def ensureJsonDepth (value : Value) : Except FilterError Unit :=
  if Json.walkDepth maxJsonDepth value.count [(value, 1)] then .ok ()
  else .error (.invalid ("the filter nests deeper than " ++ toString maxJsonDepth ++ " arrays / objects"))

/-! ### Filters -/

inductive SizeLimit where
  | enforce
  | skip
  deriving DecidableEq

structure Parsed where
  node : Node
  normalized : Value

/-- `parse::parse`. -/
def Parsed.parse (src : Value) (sizeLimit : SizeLimit) : Except FilterError Parsed := do
  if sizeLimit = .enforce then ensureEncodedSize ft src
  ensureJsonDepth src
  let ((node, normalized), _) ← ((level ft maxDepth).parseFilter src false).run 0
  return ⟨node, normalized⟩

end Parser
end Iii.Filter

namespace Iii
open Filter

/-- A validated, normalized and compiled filter. -/
structure Filter where
  normalized : Value
  node : Node
  roots : Roots

def Filter.fromParsed (parsed : Parsed) : Filter :=
  ⟨parsed.normalized, parsed.node, parsed.node.collectRoots {}⟩

/-- Validates, normalizes and compiles a filter as an observer wrote it. -/
def Filter.parse (ft : FloatText) (src : Value) : Except FilterError Filter :=
  Filter.fromParsed <$> Parsed.parse ft src .enforce

/-- Compiles a filter in the normal form the engine sends: every rule but the encoded size. -/
def Filter.fromNormalized (ft : FloatText) (normalized : Value) : Except FilterError Filter :=
  Filter.fromParsed <$> Parsed.parse ft normalized .skip

/-- `{}`: matches every document. -/
def Filter.isMatchAll (f : Filter) : Bool := f.node.isMatchAll

def Filter.matches (f : Filter) (doc : Doc) : Bool := f.node.matches doc none

def Filter.matchesValue (f : Filter) (doc : Value) : Bool := f.matches (Doc.fromValue doc)

end Iii
