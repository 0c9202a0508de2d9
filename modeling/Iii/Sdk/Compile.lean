import Iii.Filter.Parse
import Iii.Sdk.Path

/-! The closure compiler of the SDKs (`compile.go`, `compile.ts`).

The Go SDK and the Node / browser SDK validate a filter and compile it into
closures in one pass, function for function the same: an explicit stack for `$and`, a
budget of nodes, a set of roots, one closure for each clause and operator. What
differs is the language underneath (`Host`): its strings and numbers, the order it
walks the members of an object in, how a path reads the document, and the operators on
single values. As in the engine, the parsers of one depth are built from those of the
next. -/
namespace Iii.Sdk
open Filter

/-! ### The host language -/

/-- `el` is the current `$any` element (`@`). -/
abbrev Pred (Doc El : Type) := Doc → El → Bool

/-- A value operator on the value a path resolved to, which may be absent. -/
abbrev OpFn (Doc View : Type) := View → Doc → Bool

/-- A host language: `ν` are its numbers, `Doc` its documents, `El` array elements as
`@` holds them, and `View` what a path resolves to. -/
structure Host (ν Doc El View : Type) where
  code : UnitCode
  paths : PathRules
  /-- The members of an object in the order the loops walk them. -/
  members : List (Units × Json Units ν) → List (Units × Json Units ν)
  resolve : Path → Doc → El → View
  /-- The elements of an array; nothing for any other value. -/
  items : View → Option (List El)
  /-- An element as the operators read it. -/
  view : El → View
  /-- Every operator but `$any`. -/
  parseLeaf : (path name : Units) → Json Units ν → Except Error (OpFn Doc View)

/-- Nodes taken and roots referenced so far. -/
structure Budget where
  nodes : Nat := 0
  roots : Roots := {}

abbrev Parse := StateT Budget (Except Error)

variable {ν Doc El View : Type}

def kind : Json Units ν → String
  | .null => "null"
  | .bool _ => "a boolean"
  | .number _ => "a number"
  | .string _ => "a string"
  | .array _ => "an array"
  | .object _ => "an object"

section Names
variable (C : UnitCode)

def take : Parse Unit := do
  let s ← get
  set {s with nodes := s.nodes + 1}
  if s.nodes + 1 > maxNodes then
    throw (invalid (C.text "more than " ++ C.text (toString maxNodes)
      ++ C.text " operator / clause nodes"))
  else pure ()

/-- `roots.add`, for every root but `@`. -/
def addRoot (root : Root) : Parse Unit := modify fun s => {s with roots := s.roots.add root}

def startsWithDollar (key : Units) : Bool := key.head? = some 36

/-- What a key of an operator object names. -/
def opName (name : Units) : OpName :=
  if name = C.text "$eq" then .eq
  else if name = C.text "$ne" then .ne
  else if name = C.text "$in" then .inSet
  else if name = C.text "$nin" then .nin
  else if name = C.text "$gt" then .gt
  else if name = C.text "$gte" then .gte
  else if name = C.text "$lt" then .lt
  else if name = C.text "$lte" then .lte
  else if name = C.text "$exists" then .existsIs
  else if name = C.text "$prefix" then .hasPrefix
  else if name = C.text "$any" then .any
  else if name = C.text "$and" ∨ name = C.text "$or" ∨ name = C.text "$not" then .combinator
  else .unknown

/-- `valueOperators`. -/
def isValueOperator (name : Units) : Bool :=
  match opName C name with
  | .combinator | .unknown => false
  | _ => true

/-- What a key of a filter object is. -/
def clauseKey (key : Units) : ClauseKey :=
  if key = C.text "$and" then .and
  else if key = C.text "$or" then .or
  else if key = C.text "$not" then .not
  else if isValueOperator C key then .operator
  else if startsWithDollar key then .unknown
  else .path

def filterList (name : Units) (value : Json Units ν) : Except Error (List (Json Units ν)) :=
  match value with
  | .array [] => .error (invalid (C.text "`" ++ name ++ C.text "` takes a non-empty array of filters"))
  | .array items => .ok items
  | other => .error (invalid (C.text "`" ++ name ++ C.text "` takes an array of filters, found "
      ++ C.text (kind other)))

def shorthand (path : Units) : Error :=
  invalid (C.text "`" ++ path ++ C.text "`: expected an operator object such as \x7b\"$eq\": ...\x7d; "
    ++ C.text "literal values are not allowed")

/-- The checks of `parseOperatorObject` in front of `parseOperators`. -/
def operatorMap (path : Units) (value : Json Units ν) :
    Except Error (List (Units × Json Units ν)) :=
  match value with
  | .object obj =>
    if obj.isEmpty then .error (invalid (C.text "`" ++ path ++ C.text "`: empty operator object"))
    else if obj.any (fun m => !startsWithDollar m.1) then .error (shorthand C path)
    else .ok obj
  | _ => .error (shorthand C path)

end Names

/-! ### Closures -/

/-- What an ordering operator asks of a comparison. -/
def accept : OpName → Ordering → Bool
  | .gt, c => c = .gt
  | .gte, c => c = .gt || c = .eq
  | .lt, c => c = .lt
  | _, c => c = .lt || c = .eq

/-- `and`. -/
def andPred : List (Pred Doc El) → Pred Doc El
  | [] => fun _ _ => true
  | [a] => a
  | [a, b] => fun d el => a d el && b d el
  | clauses => fun d el => clauses.all fun c => c d el

def orPred (children : List (Pred Doc El)) : Pred Doc El := fun d el => children.any fun c => c d el

theorem andPred_eq (clauses : List (Pred Doc El)) (d : Doc) (el : El) :
    andPred clauses d el = clauses.all fun c => c d el := by
  rcases clauses with _ | ⟨a, _ | ⟨b, _ | ⟨c, rest⟩⟩⟩ <;> simp [andPred]

section Compiler
variable (H : Host ν Doc El View)

def pathClause (path : Path) : List (OpFn Doc View) → Pred Doc El
  | [op] => fun d el => op (H.resolve path d el) d
  | ops => fun d el => ops.all fun op => op (H.resolve path d el) d

theorem pathClause_eq (path : Path) (ops : List (OpFn Doc View)) (d : Doc) (el : El) :
    pathClause H path ops d el = ops.all fun op => op (H.resolve path d el) d := by
  rcases ops with _ | ⟨a, _ | ⟨b, rest⟩⟩ <;> simp [pathClause]

/-- `$any` with an operator object: some element passes every operator. -/
def anyOps (ops : List (OpFn Doc View)) : OpFn Doc View := fun v d =>
  match H.items v with
  | some els => els.any fun el => ops.all fun op => op (H.view el) d
  | none => false

/-- `$any` with a filter over the element. -/
def anyFilter (node : Pred Doc El) : OpFn Doc View := fun v d =>
  match H.items v with
  | some els => els.any fun el => node d el
  | none => false

/-! ### Parsing -/

/-- The parsers at one filter depth; `collect` returns the clauses of a filter. -/
structure Level (ν Doc El View : Type) where
  collect : Json Units ν → Bool → Parse (List (Pred Doc El))
  parseOperators : Units → List (Units × Json Units ν) → Parse (List (OpFn Doc View))

def parseFilter (next : Level ν Doc El View) (src : Json Units ν) (inAny : Bool) :
    Parse (Pred Doc El) := do
  let clauses ← next.collect src inAny
  pure (andPred clauses)

/-- `@` paths add no root: the `$any` clause's own path names it. -/
def parseAny (next : Level ν Doc El View) (path : Units) (operand : Json Units ν) :
    Parse (OpFn Doc View) :=
  match operand with
  | .object obj =>
    if !obj.isEmpty && obj.all (fun m => isValueOperator H.code m.1) then do
      let ops ← next.parseOperators path obj
      pure (anyOps H ops)
    else do
      let saved ← get
      let node ← parseFilter next operand true
      modify fun s => {s with roots := saved.roots}
      pure (anyFilter H node)
  | _ => throw (invalid (H.code.text "`" ++ path
      ++ H.code.text "`: `$any` takes an operator object or a filter over `@`, found "
      ++ H.code.text (kind operand)))

def parseOperator (next : Level ν Doc El View) (path name : Units) (operand : Json Units ν) :
    Parse (OpFn Doc View) :=
  if opName H.code name = .any then parseAny H next path operand
  else (H.parseLeaf path name operand : Except Error (OpFn Doc View))

def parseOperators (next : Level ν Doc El View) (path : Units) (obj : List (Units × Json Units ν)) :
    Parse (List (OpFn Doc View)) :=
  (H.members obj).mapM fun m => do
    take H.code
    parseOperator H next path m.1 m.2

/-- One key of a filter object other than `$and`. -/
def parseClause (next : Level ν Doc El View) (inAny : Bool) (key : Units) (value : Json Units ν) :
    Parse (Pred Doc El) :=
  match clauseKey H.code key with
  | .and => throw (invalid [])
  | .or => do
    take H.code
    let items ← (filterList H.code (H.code.text "$or") value : Except Error (List (Json Units ν)))
    let children ← items.mapM fun item => parseFilter next item inAny
    pure (orPred children)
  | .not => do
    take H.code
    match value with
    | .object _ => do
      let child ← parseFilter next value inAny
      pure fun d el => !child d el
    | _ => throw (invalid (H.code.text "`$not` takes a filter object, found "
        ++ H.code.text (kind value)))
  | .operator => throw (invalid (H.code.text "`" ++ key
      ++ H.code.text "` needs a path: write \x7b\"<path>\": \x7b\"" ++ key ++ H.code.text "\": ...\x7d\x7d"))
  | .unknown => throw (invalid (H.code.text "unknown operator `" ++ key
      ++ H.code.text "` (a filter holds paths, `$and`, `$or` and `$not`)"))
  | .path => do
    let path ← (parsePath H.code H.paths key inAny : Except Error Path)
    addRoot path.root
    let obj ← (operatorMap H.code key value : Except Error (List (Units × Json Units ν)))
    let ops ← parseOperators H next key obj
    pure (pathClause H path ops)

/-- The keys of one object: `$and` puts its filters on the stack, every other key
is a clause. -/
def collectEntries (next : Level ν Doc El View) (inAny : Bool) :
    List (Units × Json Units ν) → (pending : List (Json Units ν)) → (out : List (Pred Doc El)) →
      Parse (List (Json Units ν) × List (Pred Doc El))
  | [], pending, out => pure (pending, out)
  | (key, value) :: rest, pending, out =>
    if key = H.code.text "$and" then do
      let items ← (filterList H.code key value : Except Error (List (Json Units ν)))
      collectEntries next inAny rest (items ++ pending) out
    else do
      let clause ← parseClause H next inAny key value
      collectEntries next inAny rest pending (out ++ [clause])

/-- `collectClauses`: the stack of filters still to read. Every pass pops one filter
and pushes only values inside it, so the number of values in the source bounds the
passes. -/
def collectClauses (next : Level ν Doc El View) (inAny : Bool) :
    (passes : Nat) → (pending : List (Json Units ν)) → (out : List (Pred Doc El)) →
      Parse (List (Pred Doc El))
  | _, [], out => pure out
  | 0, _ :: _, _ => throw (invalid [])
  | passes + 1, src :: pending, out =>
    match src with
    | .object obj => do
      let r ← collectEntries H next inAny (H.members obj) pending out
      collectClauses next inAny passes r.1 r.2
    | _ => throw (invalid (H.code.text "a filter must be a JSON object, found "
        ++ H.code.text (kind src)))

def tooDeep : Error :=
  invalid (H.code.text "filters nested deeper than " ++ H.code.text (toString maxDepth)
    ++ H.code.text " levels")

/-- The parsers with `n` filter depths left, this one included. -/
def level : Nat → Level ν Doc El View
  | 0 => ⟨fun _ _ => throw (tooDeep H), fun _ _ => throw (tooDeep H)⟩
  | n + 1 => ⟨fun src inAny => collectClauses H (level n) inAny src.count [src] [],
      parseOperators H (level n)⟩

/-- The clauses of a top-level filter and the roots they reference. -/
def compileClauses (src : Json Units ν) : Except Error (List (Pred Doc El) × Roots) := do
  let (clauses, s) ← ((level H maxDepth).collect src false).run {}
  return (clauses, s.roots)

end Compiler

end Iii.Sdk
