import Iii.Filter.Path

/-! The compiled filter tree and its evaluation (`eval.rs`). -/
namespace Iii.Filter

/-- The operand of `$gt`, `$gte`, `$lt` and `$lte`. -/
inductive Bound where
  | num (b : Int)
  | str (s : String)
  deriving DecidableEq

mutual
inductive Node where
  | and (nodes : List Node)
  | or (nodes : List Node)
  | not (node : Node)
  | path (path : Path) (ops : List Op)
inductive Op where
  | eq (literal : Value)
  | ne (literal : Value)
  | inSet (literals : List Value)
  | nin (literals : List Value)
  | gt (bound : Bound)
  | gte (bound : Bound)
  | lt (bound : Bound)
  | lte (bound : Bound)
  | existsIs (expected : Bool)
  | hasPrefix (p : String)
  | any (operand : AnyOperand)
inductive AnyOperand where
  | ops (ops : List Op)
  | filter (node : Node)
end

/-! ### Comparisons -/

/-- Numbers by value, strings by UTF-8 byte order, anything else unordered. -/
def compareBound (value : Option Value) (bound : Bound) : Option Ordering :=
  match value, bound with
  | some (.number n), .num b => some (compare n.asF64 b)
  | some (.string s), .str b => some (compare (utf8 s) (utf8 b))
  | _, _ => none

mutual
/-- JSON deep equality: numbers by value, object keys in any order. -/
def jsonEq : Value → Value → Bool
  | .null, .null => true
  | .bool x, .bool y => x = y
  | .number x, .number y => x.asF64 = y.asF64
  | .string x, .string y => x = y
  | .array x, .array y => x.length = y.length && jsonEqItems x y
  | .object x, .object y => x.length = y.length && jsonEqMembers x y
  | _, _ => false
/-- `x.iter().zip(y).all(..)`. -/
def jsonEqItems : List Value → List Value → Bool
  | a :: x, b :: y => jsonEq a b && jsonEqItems x y
  | _, _ => true
/-- Every member of `x` has an equal one under its key in `y`. -/
def jsonEqMembers : List (String × Value) → List (String × Value) → Bool
  | [], _ => true
  | m :: x, y =>
    (match Json.get? y m.1 with
      | some w => jsonEq m.2 w
      | none => false) && jsonEqMembers x y
end

/-- Objects are equal when they have one size and every member has an equal partner. -/
theorem jsonEq_object_iff (x y : List (String × Value)) :
    jsonEq (.object x) (.object y) = true ↔ x.length = y.length ∧
      ∀ m ∈ x, ∃ w, Json.get? y m.1 = some w ∧ jsonEq m.2 w = true := by
  have hmembers : jsonEqMembers x y = true ↔
      ∀ m ∈ x, ∃ w, Json.get? y m.1 = some w ∧ jsonEq m.2 w = true := by
    induction x with
    | nil => exact ⟨fun _ _ h => absurd h List.not_mem_nil, fun _ => rfl⟩
    | cons m rest ih =>
      rw [jsonEqMembers, Bool.and_eq_true, List.forall_mem_cons, ← ih]
      cases Json.get? y m.1 <;> simp
  show (decide (x.length = y.length) && jsonEqMembers x y) = true ↔ _
  rw [Bool.and_eq_true, decide_eq_true_iff, hmembers]

theorem jsonEq_array_iff (x y : List Value) :
    jsonEq (.array x) (.array y) = true ↔ List.Forall₂ (fun a b => jsonEq a b = true) x y := by
  show (decide (x.length = y.length) && jsonEqItems x y) = true ↔ _
  rw [Bool.and_eq_true, decide_eq_true_iff]
  induction x generalizing y with
  | nil =>
    cases y with
    | nil => exact ⟨fun _ => .nil, fun _ => ⟨rfl, rfl⟩⟩
    | cons b y => simp
  | cons a x ih =>
    cases y with
    | nil => simp
    | cons b y =>
      show _ ∧ (jsonEq a b && jsonEqItems x y) = true ↔ _
      rw [Bool.and_eq_true, List.forall₂_cons, ← ih, List.length_cons, List.length_cons,
        Nat.add_right_cancel_iff]
      exact and_left_comm

/-- `s.starts_with(p)`, on the bytes. -/
def startsWith (s p : String) : Bool := (utf8 p).isPrefixOf (utf8 s)

/-! ### Evaluation -/

mutual
def Node.matches (doc : Doc) (element : Option Value) : Node → Bool
  | .and nodes => Node.allMatch doc element nodes
  | .or nodes => Node.anyMatch doc element nodes
  | .not node => !Node.matches doc element node
  | .path p ops => Op.allMatch doc (p.resolve doc element) ops
def Node.allMatch (doc : Doc) (element : Option Value) : List Node → Bool
  | [] => true
  | n :: rest => Node.matches doc element n && Node.allMatch doc element rest
def Node.anyMatch (doc : Doc) (element : Option Value) : List Node → Bool
  | [] => false
  | n :: rest => Node.matches doc element n || Node.anyMatch doc element rest
/-- `value` is `none` when the path is absent. -/
def Op.matches (doc : Doc) (value : Option Value) : Op → Bool
  | .eq literal => value.any (jsonEq · literal)
  | .ne literal => !value.any (jsonEq · literal)
  | .inSet literals => value.any fun v => literals.any (jsonEq v)
  | .nin literals => !value.any fun v => literals.any (jsonEq v)
  | .gt bound => compareBound value bound = some .gt
  | .gte bound => compareBound value bound = some .gt || compareBound value bound = some .eq
  | .lt bound => compareBound value bound = some .lt
  | .lte bound => compareBound value bound = some .lt || compareBound value bound = some .eq
  | .existsIs expected => value.isSome = expected
  | .hasPrefix p =>
    match value with
    | some (.string s) => startsWith s p
    | _ => false
  | .any operand =>
    match value with
    | some (.array items) => items.any fun item => AnyOperand.matches doc item operand
    | _ => false
def Op.allMatch (doc : Doc) (value : Option Value) : List Op → Bool
  | [] => true
  | op :: rest => Op.matches doc value op && Op.allMatch doc value rest
/-- The operand of `$any` on one element. -/
def AnyOperand.matches (doc : Doc) (item : Value) : AnyOperand → Bool
  | .ops ops => Op.allMatch doc (some item) ops
  | .filter node => Node.matches doc (some item) node
end

theorem Node.allMatch_eq (doc : Doc) (element : Option Value) (nodes : List Node) :
    Node.allMatch doc element nodes = nodes.all (Node.matches doc element) := by
  induction nodes with
  | nil => rfl
  | cons n rest ih => rw [Node.allMatch, ih, List.all_cons]

theorem Node.anyMatch_eq (doc : Doc) (element : Option Value) (nodes : List Node) :
    Node.anyMatch doc element nodes = nodes.any (Node.matches doc element) := by
  induction nodes with
  | nil => rfl
  | cons n rest ih => rw [Node.anyMatch, ih, List.any_cons]

theorem Op.allMatch_eq (doc : Doc) (value : Option Value) (ops : List Op) :
    Op.allMatch doc value ops = ops.all (Op.matches doc value) := by
  induction ops with
  | nil => rfl
  | cons op rest ih => rw [Op.allMatch, ih, List.all_cons]

def Node.isMatchAll : Node → Bool
  | .and nodes => nodes.isEmpty
  | _ => false

/-! ### Roots -/

/-- The document roots a filter references. -/
structure Roots where
  input : Bool := false
  output : Bool := false
  error : Bool := false
  caller : Bool := false
  metadata : Bool := false
  deriving DecidableEq

/-- `@` paths live inside `$any`, whose own path names the root. -/
def Roots.add (roots : Roots) : Root → Roots
  | .input => {roots with input := true}
  | .output => {roots with output := true}
  | .error => {roots with error := true}
  | .caller => {roots with caller := true}
  | .metadata => {roots with metadata := true}
  | .element => roots

mutual
def Node.collectRoots (roots : Roots) : Node → Roots
  | .and nodes => Node.collectRootsOf roots nodes
  | .or nodes => Node.collectRootsOf roots nodes
  | .not node => Node.collectRoots roots node
  | .path p _ => roots.add p.root
def Node.collectRootsOf (roots : Roots) : List Node → Roots
  | [] => roots
  | n :: rest => Node.collectRootsOf (Node.collectRoots roots n) rest
end

end Iii.Filter
