import Iii.Filter.Parse

/-! The filter language, read off the JSON as written.

A filter object is the conjunction of its keys, `$and` of its members, `$or` the
disjunction, `$not` the negation; a path clause is the conjunction of its operators
on the value the path resolves to; `$any` holds of an array some element of which
passes its operand. This file says that directly by recursion on the JSON value, with
no stack, no sorting and no limits on the way: which values are filters
(`filterOk`), how many nodes they have (`filterNodes`), which documents they match
(`readFilter`), which roots they mention (`mentions`), and what their normal form is
(`normal`). The evaluators of the engine and of the SDKs are compared with it. -/
namespace Iii.Filter

/-! ### Literals and single operators -/

mutual
/-- Every number of the value is within ±2^53. -/
def numbersOk : Value → Bool
  | .number n => n.inRange
  | .array items => numbersOkItems items
  | .object map => numbersOkMembers map
  | _ => true
def numbersOkItems : List Value → Bool
  | [] => true
  | j :: rest => numbersOk j && numbersOkItems rest
def numbersOkMembers : List (String × Value) → Bool
  | [] => true
  | m :: rest => numbersOk m.2 && numbersOkMembers rest
end

def literalOk (v : Value) : Bool := numbersOk v && v.depth ≤ maxLiteralDepth

/-- The operand of an operator other than `$any` is of the type the operator takes. -/
def leafOk (name : String) (operand : Value) : Bool :=
  match opName name, operand with
  | .eq, _ | .ne, _ => literalOk operand
  | .inSet, .array items | .nin, .array items =>
    items.length ≤ maxSetItems && items.all literalOk
  | .gt, .number n | .gte, .number n | .lt, .number n | .lte, .number n => n.inRange
  | .gt, .string _ | .gte, .string _ | .lt, .string _ | .lte, .string _ => true
  | .existsIs, .bool _ => true
  | .hasPrefix, .string _ => true
  | _, _ => false

/-- How a value stands to an ordering operand: within one JSON type only. -/
def ordering : Option Value → Value → Option Ordering
  | some (.number n), .number b => some (compare n.asF64 b.asF64)
  | some (.string s), .string b => some (compare (utf8 s) (utf8 b))
  | _, _ => none

/-- An operator other than `$any` on the value its path resolves to. Absent matches
`$ne`, `$nin` and `$exists: false` only. -/
def readLeaf (name : String) (operand : Value) (value : Option Value) : Bool :=
  match opName name, operand with
  | .eq, _ => value.any (jsonEq · operand)
  | .ne, _ => !value.any (jsonEq · operand)
  | .inSet, .array items => value.any fun v => items.any (jsonEq v)
  | .nin, .array items => !value.any fun v => items.any (jsonEq v)
  | .gt, _ => ordering value operand = some .gt
  | .gte, _ => ordering value operand = some .gt || ordering value operand = some .eq
  | .lt, _ => ordering value operand = some .lt
  | .lte, _ => ordering value operand = some .lt || ordering value operand = some .eq
  | .existsIs, .bool b => value.isSome = b
  | .hasPrefix, .string p =>
    match value with
    | some (.string s) => startsWith s p
    | _ => false
  | _, _ => false

/-- The operand of `$any` is an operator object, not a filter over the element. -/
def isOperatorObject (map : List (String × Value)) : Bool :=
  !map.isEmpty && map.all (fun m => isValueOperator m.1)

/-- The value a path clause speaks about; inside `$any` there is an element. -/
def pathValue (doc : Doc) (element : Option Value) (key : String) : Option Value :=
  match Path.parse key element.isSome with
  | .ok path => path.resolve doc element
  | .error _ => none

def pathOk (key : String) (inAny : Bool) : Bool := (Path.parse key inAny).isOk

/-! ### Which values are filters -/

mutual
/-- A filter with `n` filter depths left, its own included. -/
def filterOk : (n : Nat) → (inAny : Bool) → Value → Bool
  | n, inAny, .object map => n ≠ 0 && membersOk n inAny map
  | _, _, _ => false
def membersOk : (n : Nat) → (inAny : Bool) → List (String × Value) → Bool
  | _, _, [] => true
  | n, inAny, (key, value) :: rest =>
    (match clauseKey key with
      | .and =>
        match value with
        | .array items => !items.isEmpty && itemsOk n inAny items
        | _ => false
      | .or =>
        match value with
        | .array items => !items.isEmpty && itemsOk (n - 1) inAny items
        | _ => false
      | .not => filterOk (n - 1) inAny value
      | .path =>
        match value with
        | .object ops => pathOk key inAny && !ops.isEmpty
            && ops.all (fun m => startsWithDollar m.1) && opsOk n ops
        | _ => false
      | _ => false) && membersOk n inAny rest
def itemsOk : (n : Nat) → (inAny : Bool) → List Value → Bool
  | _, _, [] => true
  | n, inAny, j :: rest => filterOk n inAny j && itemsOk n inAny rest
/-- The operators of an object at a filter with `n` depths left. -/
def opsOk : (n : Nat) → List (String × Value) → Bool
  | _, [] => true
  | n, (name, operand) :: rest =>
    (if opName name = .any then
      match operand with
      | .object map =>
        if isOperatorObject map then n - 1 ≠ 0 && opsOk (n - 1) map
        else n - 1 ≠ 0 && membersOk (n - 1) true map
      | _ => false
    else leafOk name operand) && opsOk n rest
end

/-! ### Nodes -/

mutual
/-- Operators, `$or`s and `$not`s; paths and `$and` are free. -/
def filterNodes : Value → Nat
  | .object map => membersNodes map
  | _ => 0
def membersNodes : List (String × Value) → Nat
  | [] => 0
  | (key, value) :: rest =>
    (match clauseKey key with
      | .and =>
        match value with
        | .array items => itemsNodes items
        | _ => 0
      | .or =>
        match value with
        | .array items => 1 + itemsNodes items
        | _ => 0
      | .not => 1 + filterNodes value
      | .path =>
        match value with
        | .object ops => opsNodes ops
        | _ => 0
      | _ => 0) + membersNodes rest
def itemsNodes : List Value → Nat
  | [] => 0
  | j :: rest => filterNodes j + itemsNodes rest
def opsNodes : List (String × Value) → Nat
  | [] => 0
  | (name, operand) :: rest =>
    1 + (if opName name = .any then
      match operand with
      | .object map => if isOperatorObject map then opsNodes map else membersNodes map
      | _ => 0
    else 0) + opsNodes rest
end

/-! ### Which documents a filter matches -/

mutual
def readFilter (doc : Doc) : (element : Option Value) → Value → Bool
  | element, .object map => readMembers doc element map
  | _, _ => false
def readMembers (doc : Doc) : (element : Option Value) → List (String × Value) → Bool
  | _, [] => true
  | element, (key, value) :: rest =>
    (match clauseKey key with
      | .and =>
        match value with
        | .array items => readEvery doc element items
        | _ => false
      | .or =>
        match value with
        | .array items => readSome doc element items
        | _ => false
      | .not => !readFilter doc element value
      | .path =>
        match value with
        | .object ops => readOps doc (pathValue doc element key) ops
        | _ => false
      | _ => false) && readMembers doc element rest
def readEvery (doc : Doc) : (element : Option Value) → List Value → Bool
  | _, [] => true
  | element, j :: rest => readFilter doc element j && readEvery doc element rest
def readSome (doc : Doc) : (element : Option Value) → List Value → Bool
  | _, [] => false
  | element, j :: rest => readFilter doc element j || readSome doc element rest
/-- The conjunction of the operators on one value. -/
def readOps (doc : Doc) : (value : Option Value) → List (String × Value) → Bool
  | _, [] => true
  | value, (name, operand) :: rest =>
    (if opName name = .any then
      match value with
      | some (.array items) =>
        match operand with
        | .object map =>
          items.any fun item =>
            if isOperatorObject map then readOps doc (some item) map
            else readMembers doc (some item) map
        | _ => false
      | _ => false
    else readLeaf name operand value) && readOps doc value rest
end

/-! ### Which roots a filter mentions -/

mutual
/-- Some path clause outside every `$any` starts at `r`. -/
def mentions (r : Root) (inAny : Bool) : Value → Bool
  | .object map => mentionsMembers r inAny map
  | _ => false
def mentionsMembers (r : Root) (inAny : Bool) : List (String × Value) → Bool
  | [] => false
  | (key, value) :: rest =>
    (match clauseKey key with
      | .and | .or =>
        match value with
        | .array items => mentionsItems r inAny items
        | _ => false
      | .not => mentions r inAny value
      | .path => (Path.parse key inAny).toOption.map (·.root) = some r
      | _ => false) || mentionsMembers r inAny rest
def mentionsItems (r : Root) (inAny : Bool) : List Value → Bool
  | [] => false
  | j :: rest => mentions r inAny j || mentionsItems r inAny rest
end

/-! ### Normal form -/

section Normal
variable (ft : FloatText)

/-- A clause `{ key: operand }` by key, then by the canonical JSON of its operand. -/
def pairOrder (c : String × Value) : List Nat ×ₗ List Nat :=
  toLex (utf8 c.1, utf8 (String.ofList (canonical ft c.2)))

def pairLe (a b : String × Value) : Prop := pairOrder ft a ≤ pairOrder ft b

instance : DecidableRel (pairLe ft) := fun a b =>
  inferInstanceAs (Decidable (pairOrder ft a ≤ pairOrder ft b))

/-- Equal key and equal canonical operand. -/
def pairSame (a b : String × Value) : Prop :=
  a.1 = b.1 ∧ String.ofList (canonical ft a.2) = String.ofList (canonical ft b.2)

instance : DecidableRel (pairSame ft) := fun a b =>
  inferInstanceAs (Decidable (a.1 = b.1 ∧ _))

/-- The clauses of a normal form: sorted, without duplicates. -/
def kept (clauses : List (String × Value)) : List (String × Value) :=
  (clauses.insertionSort (pairLe ft)).destutter (fun a b => ¬ pairSame ft a b)

/-- One clause per object, under one `$and`; no clauses, no `$and`. -/
def wrap : List (String × Value) → Value
  | [] => .object []
  | clauses => .object [("$and", .array (clauses.map fun c => .object [c]))]

mutual
/-- The clauses of a filter, `$and` flattened: its own first, then those of the
filters its `$and` holds. -/
def clausesOf : Value → List (String × Value)
  | .object map => ownClauses map ++ andClauses map
  | _ => []
def ownClauses : List (String × Value) → List (String × Value)
  | [] => []
  | (key, value) :: rest =>
    match clauseKey key with
    | .and => ownClauses rest
    | .or =>
      match value with
      | .array items => ("$or", .array (normalItems items)) :: ownClauses rest
      | _ => (key, value) :: ownClauses rest
    | .not => ("$not", wrap (kept ft (clausesOf value))) :: ownClauses rest
    | .path =>
      match value with
      | .object ops => (key, .object ((normalOps ops).insertionSort keyLe)) :: ownClauses rest
      | _ => (key, value) :: ownClauses rest
    | _ => (key, value) :: ownClauses rest
def andClauses : List (String × Value) → List (String × Value)
  | [] => []
  | (key, value) :: rest =>
    andClauses rest ++
      (match clauseKey key with
        | .and =>
          match value with
          | .array items => itemsClauses items
          | _ => []
        | _ => [])
def itemsClauses : List Value → List (String × Value)
  | [] => []
  | j :: rest => clausesOf j ++ itemsClauses rest
def normalItems : List Value → List Value
  | [] => []
  | j :: rest => wrap (kept ft (clausesOf j)) :: normalItems rest
/-- The operators with their operands in normal form, in the order written. -/
def normalOps : List (String × Value) → List (String × Value)
  | [] => []
  | (name, operand) :: rest =>
    (name,
      if opName name = .any then
        match operand with
        | .object map =>
          if isOperatorObject map then .object ((normalOps map).insertionSort keyLe)
          else wrap (kept ft (ownClauses map ++ andClauses map))
        | _ => operand
      else operand) :: normalOps rest
end

/-- The normal form of a filter. -/
def normal (v : Value) : Value := wrap (kept ft (clausesOf ft v))

end Normal

end Iii.Filter
