import Iii.Filter.Language
import Mathlib.Algebra.BigOperators.Group.List.Basic

/-! The language one clause and one operator at a time.

`Language` recurses over members and items in step with the JSON value. Here each
of its functions is restated on lists: a filter is valid when each of its clauses
is, costs the sum of their nodes, matches when all match. `filter_induct` is the
induction that goes with it: over filters and operator objects at once, with the
hypothesis for every filter a clause holds. -/
namespace Iii.Filter

/-- Induction over filters (`F`) and operator objects (`O`). A member of an object
may hold a filter, an operator object or an array of filters. -/
theorem filter_induct {F : Value → Prop} {O : List (String × Value) → Prop}
    (object : ∀ map : List (String × Value),
      (∀ m ∈ map, F m.2 ∧ (∀ ops, m.2 = .object ops → O ops) ∧
        ∀ items, m.2 = .array items → ∀ i ∈ items, F i) →
      F (.object map) ∧ O map)
    (other : ∀ v : Value, (∀ map, v ≠ .object map) → F v) : (∀ v, F v) ∧ ∀ map, O map := by
  suffices h : ∀ v, F v ∧ (∀ ops, v = .object ops → O ops) ∧
      ∀ items, v = .array items → ∀ i ∈ items, F i from
    ⟨fun v => (h v).1, fun map => (h (.object map)).2.1 map rfl⟩
  intro v
  induction v using Json.ind with
  | object map ih =>
    obtain ⟨hF, hO⟩ := object map ih
    refine ⟨hF, ?_, ?_⟩
    · intro ops h
      cases h
      exact hO
    · intro items h
      cases h
  | array items ih =>
    refine ⟨other _ (by simp), by simp, ?_⟩
    intro items' h i hi
    cases h
    exact (ih i hi).1
  | _ => exact ⟨other _ (by simp), by simp, by simp⟩

/-! ### Validity -/

def clauseOk (n : Nat) (inAny : Bool) (c : String × Value) : Bool :=
  match clauseKey c.1, c.2 with
  | .and, .array items => !items.isEmpty && items.all (filterOk n inAny)
  | .or, .array items => !items.isEmpty && items.all (filterOk (n - 1) inAny)
  | .not, value => filterOk (n - 1) inAny value
  | .path, .object ops => pathOk c.1 inAny && !ops.isEmpty
      && ops.all (fun m => startsWithDollar m.1) && opsOk n ops
  | _, _ => false

def opOk (n : Nat) (o : String × Value) : Bool :=
  if opName o.1 = .any then
    match o.2 with
    | .object map =>
      if isOperatorObject map then n - 1 ≠ 0 && opsOk (n - 1) map
      else filterOk (n - 1) true o.2
    | _ => false
  else leafOk o.1 o.2

theorem itemsOk_eq (n : Nat) (inAny : Bool) (items : List Value) :
    itemsOk n inAny items = items.all (filterOk n inAny) := by
  induction items with
  | nil => rfl
  | cons j rest ih => rw [itemsOk, ih, List.all_cons]

theorem membersOk_eq (n : Nat) (inAny : Bool) (map : List (String × Value)) :
    membersOk n inAny map = map.all (clauseOk n inAny) := by
  induction map with
  | nil => rfl
  | cons m rest ih =>
    obtain ⟨key, value⟩ := m
    rw [List.all_cons, ← ih]
    unfold clauseOk
    cases hk : clauseKey key <;> cases value <;> simp [membersOk, hk, itemsOk_eq]

theorem filterOk_object (n : Nat) (inAny : Bool) (map : List (String × Value)) :
    filterOk n inAny (.object map) = (n ≠ 0 && map.all (clauseOk n inAny)) := by
  rw [filterOk, membersOk_eq]

theorem opsOk_eq (n : Nat) (ops : List (String × Value)) : opsOk n ops = ops.all (opOk n) := by
  induction ops with
  | nil => rfl
  | cons o rest ih =>
    obtain ⟨name, operand⟩ := o
    rw [List.all_cons, ← ih]
    unfold opOk
    cases operand <;> simp [opsOk, filterOk]

/-! ### Nodes -/

def clauseNodes (c : String × Value) : Nat :=
  match clauseKey c.1, c.2 with
  | .and, .array items => (items.map filterNodes).sum
  | .or, .array items => 1 + (items.map filterNodes).sum
  | .not, value => 1 + filterNodes value
  | .path, .object ops => opsNodes ops
  | _, _ => 0

def opNodes (o : String × Value) : Nat :=
  1 + (if opName o.1 = .any then
    match o.2 with
    | .object map => if isOperatorObject map then opsNodes map else filterNodes o.2
    | _ => 0
  else 0)

theorem itemsNodes_eq (items : List Value) : itemsNodes items = (items.map filterNodes).sum := by
  induction items with
  | nil => rfl
  | cons j rest ih => rw [itemsNodes, ih, List.map_cons, List.sum_cons]

theorem filterNodes_object (map : List (String × Value)) :
    filterNodes (.object map) = (map.map clauseNodes).sum := by
  rw [filterNodes]
  induction map with
  | nil => rfl
  | cons m rest ih =>
    obtain ⟨key, value⟩ := m
    rw [List.map_cons, List.sum_cons, ← ih]
    unfold clauseNodes
    cases hk : clauseKey key <;> cases value <;> simp [membersNodes, hk, itemsNodes_eq]

theorem opsNodes_eq (ops : List (String × Value)) : opsNodes ops = (ops.map opNodes).sum := by
  induction ops with
  | nil => rfl
  | cons o rest ih =>
    obtain ⟨name, operand⟩ := o
    rw [List.map_cons, List.sum_cons, ← ih]
    unfold opNodes
    cases operand <;> simp [opsNodes, filterNodes]

/-! ### Matching -/

def readClause (doc : Doc) (element : Option Value) (c : String × Value) : Bool :=
  match clauseKey c.1, c.2 with
  | .and, .array items => items.all (readFilter doc element)
  | .or, .array items => items.any (readFilter doc element)
  | .not, value => !readFilter doc element value
  | .path, .object ops => readOps doc (pathValue doc element c.1) ops
  | _, _ => false

/-- The operand of `$any` on one element. -/
def readAny (doc : Doc) (item : Value) (map : List (String × Value)) : Bool :=
  if isOperatorObject map then readOps doc (some item) map
  else readFilter doc (some item) (.object map)

def readOp (doc : Doc) (value : Option Value) (o : String × Value) : Bool :=
  if opName o.1 = .any then
    match value, o.2 with
    | some (.array items), .object map => items.any fun item => readAny doc item map
    | _, _ => false
  else readLeaf o.1 o.2 value

theorem readEvery_eq (doc : Doc) (element : Option Value) (items : List Value) :
    readEvery doc element items = items.all (readFilter doc element) := by
  induction items with
  | nil => rfl
  | cons j rest ih => rw [readEvery, ih, List.all_cons]

theorem readSome_eq (doc : Doc) (element : Option Value) (items : List Value) :
    readSome doc element items = items.any (readFilter doc element) := by
  induction items with
  | nil => rfl
  | cons j rest ih => rw [readSome, ih, List.any_cons]

theorem readFilter_object (doc : Doc) (element : Option Value) (map : List (String × Value)) :
    readFilter doc element (.object map) = map.all (readClause doc element) := by
  rw [readFilter]
  induction map with
  | nil => rfl
  | cons m rest ih =>
    obtain ⟨key, value⟩ := m
    rw [List.all_cons, ← ih]
    unfold readClause
    cases hk : clauseKey key <;> cases value <;> simp [readMembers, hk, readEvery_eq, readSome_eq]

theorem readOps_eq (doc : Doc) (value : Option Value) (ops : List (String × Value)) :
    readOps doc value ops = ops.all (readOp doc value) := by
  induction ops with
  | nil => rfl
  | cons o rest ih =>
    obtain ⟨name, operand⟩ := o
    rw [List.all_cons, ← ih]
    unfold readOp readAny
    rcases value with _ | value
    · simp [readOps]
    · cases value <;> cases operand <;> simp [readOps, readFilter]

theorem readOp_any {name : String} (hn : opName name = .any) {doc : Doc} {value : Option Value}
    {a b : List (String × Value)} (h : ∀ item, readAny doc item a = readAny doc item b) :
    readOp doc value (name, .object a) = readOp doc value (name, .object b) := by
  rcases value with _ | value
  · simp [readOp, hn]
  · cases value <;> simp [readOp, hn, h]

theorem readOp_any_other {name : String} (hn : opName name = .any) {doc : Doc} {value : Option Value}
    {operand : Value} (h : ∀ map, operand ≠ .object map) : readOp doc value (name, operand) = false := by
  cases operand with
  | object map => exact absurd rfl (h map)
  | _ =>
    rcases value with _ | value
    · simp [readOp, hn]
    · cases value <;> simp [readOp, hn]

/-! ### Roots -/

def clauseMentions (r : Root) (inAny : Bool) (c : String × Value) : Bool :=
  match clauseKey c.1, c.2 with
  | .and, .array items => items.any (mentions r inAny)
  | .or, .array items => items.any (mentions r inAny)
  | .not, value => mentions r inAny value
  | .path, _ => (Path.parse c.1 inAny).toOption.map (·.root) = some r
  | _, _ => false

theorem mentionsItems_eq (r : Root) (inAny : Bool) (items : List Value) :
    mentionsItems r inAny items = items.any (mentions r inAny) := by
  induction items with
  | nil => rfl
  | cons j rest ih => rw [mentionsItems, ih, List.any_cons]

theorem mentions_object (r : Root) (inAny : Bool) (map : List (String × Value)) :
    mentions r inAny (.object map) = map.any (clauseMentions r inAny) := by
  rw [mentions]
  induction map with
  | nil => rfl
  | cons m rest ih =>
    obtain ⟨key, value⟩ := m
    rw [List.any_cons, ← ih]
    unfold clauseMentions
    cases hk : clauseKey key <;> cases value <;> simp [mentionsMembers, hk, mentionsItems_eq]

/-! ### Normal form -/

section Normal
variable (ft : FloatText)

/-- A clause with its operand in normal form. -/
def normalClause (c : String × Value) : String × Value :=
  match clauseKey c.1, c.2 with
  | .or, .array items => ("$or", .array (items.map (normal ft)))
  | .not, value => ("$not", normal ft value)
  | .path, .object ops => (c.1, .object ((normalOps ft ops).insertionSort keyLe))
  | _, _ => c

def normalOp (o : String × Value) : String × Value :=
  (o.1,
    if opName o.1 = .any then
      match o.2 with
      | .object map =>
        if isOperatorObject map then .object ((normalOps ft map).insertionSort keyLe)
        else normal ft o.2
      | _ => o.2
    else o.2)

/-- The filters the `$and` of an object holds. -/
def andItems {ν : Type} : List (String × Json String ν) → List (Json String ν)
  | [] => []
  | (key, value) :: rest =>
    andItems rest ++
      (match clauseKey key, value with
        | .and, .array items => items
        | _, _ => [])

def isAnd {ν : Type} (c : String × Json String ν) : Bool := clauseKey c.1 = .and

theorem normalItems_eq (items : List Value) : normalItems ft items = items.map (normal ft) := by
  induction items with
  | nil => rfl
  | cons j rest ih =>
    rw [normalItems, ih, List.map_cons]
    rfl

theorem itemsClauses_eq (items : List Value) :
    itemsClauses ft items = items.flatMap (clausesOf ft) := by
  induction items with
  | nil => rfl
  | cons j rest ih => rw [itemsClauses, ih, List.flatMap_cons]

theorem ownClauses_eq (map : List (String × Value)) :
    ownClauses ft map = (map.filter (fun m => !isAnd m)).map (normalClause ft) := by
  induction map with
  | nil => rfl
  | cons m rest ih =>
    obtain ⟨key, value⟩ := m
    rw [List.filter_cons]
    cases hk : clauseKey key <;> cases value <;>
      simp [ownClauses, isAnd, hk, normalItems_eq, normalClause, normal, ih]

theorem andClauses_eq (map : List (String × Value)) :
    andClauses ft map = (andItems map).flatMap (clausesOf ft) := by
  induction map with
  | nil => rfl
  | cons m rest ih =>
    obtain ⟨key, value⟩ := m
    cases hk : clauseKey key <;> cases value <;>
      simp [andClauses, andItems, hk, ih, itemsClauses_eq]

theorem clausesOf_object (map : List (String × Value)) :
    clausesOf ft (.object map) = (map.filter (fun m => !isAnd m)).map (normalClause ft)
      ++ (andItems map).flatMap (clausesOf ft) := by
  rw [clausesOf, ownClauses_eq, andClauses_eq]

theorem normalOps_eq (ops : List (String × Value)) : normalOps ft ops = ops.map (normalOp ft) := by
  induction ops with
  | nil => rfl
  | cons o rest ih =>
    obtain ⟨name, operand⟩ := o
    rw [List.map_cons, ← ih]
    unfold normalOp
    cases operand <;> simp [normalOps, normal, clausesOf]

end Normal
end Iii.Filter
