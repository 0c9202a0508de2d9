import Iii.Json.Arith
import Iii.Lib.Assoc
import Iii.Sdk.Path

/-! Host values of the Python SDK seen through JSON (`filter/_value.py`).

The evaluator answers as if a document were the JSON form of the host value, without
building it: `json_view` encodes one step, and `object_member` and `array_element` step
into what it shows. `to_json_value` is the eager form. `ABSENT` is `none` here, and
`None` is `PyValue.none`, the JSON null.

A `str` is its code points. The containers and scalars are the built-in ones: a subclass
that overrides how they look things up is not a value here, and neither the depth of the
interpreter's stack nor the digits it writes of an int are bounded. What pydantic makes of
other objects is in the value itself. -/
namespace Iii.Python
open Sdk

/-- Code points of a `str`. -/
def code : UnitCode where
  word := fun c => [c.toNat]
  ascii := fun _ _ => rfl
  wide := fun c h u hu => by
    rw [List.mem_singleton.mp hu]
    exact h
  ne_nil := fun _ => List.cons_ne_nil _ _
  injective := by
    intro a b h
    have hmap : ∀ s : List Char, s.flatMap (fun c => [c.toNat]) = s.map Char.toNat :=
      fun s => List.flatMap_pure_eq_map Char.toNat s
    have hchars : a.map Char.toNat = b.map Char.toNat := by
      rw [← hmap, ← hmap]
      exact h
    exact List.map_injective_iff.mpr (fun _ _ hc => Char.toNat_inj.mp hc) hchars

/-! ### Numbers -/

/-- A `float`. -/
inductive PyFloat where
  | finite (f : F64)
  | inf (neg : Bool)
  | nan
  deriving DecidableEq

namespace PyFloat

def isFinite : PyFloat → Bool
  | .finite _ => true
  | _ => false

/-- `==`: no NaN equals anything. -/
def eq : PyFloat → PyFloat → Bool
  | .finite a, .finite b => a.value = b.value
  | .inf a, .inf b => a = b
  | _, _ => false

/-- `<`. -/
def lt : PyFloat → PyFloat → Bool
  | .finite a, .finite b => a.value < b.value
  | .inf a, .inf b => a && !b
  | .inf neg, .finite _ => neg
  | .finite _, .inf neg => !neg
  | _, _ => false

/-- `float(n)`, and the infinity of its sign where that overflows. -/
def ofInt (n : Int) : PyFloat :=
  match F64.ofInt n with
  | some f => .finite f
  | none => .inf (n < 0)

end PyFloat

/-- `float.__repr__` of a finite double: it starts with its sign or a digit. -/
structure FloatRepr where
  repr : F64 → Units
  first : ∀ f, ∃ u rest, repr f = u :: rest ∧ (u = 45 ∨ isDigit u = true)

/-! ### Values -/

/-- A dict key. `other` is one of any other type: `equal` is the `str` it equals without
being one, as `UserString("a")` equals `"a"`; a tuple equals none. -/
inductive Key where
  | str (s : Units)
  | bool (b : Bool)
  | none
  | int (n : Int)
  | float (x : PyFloat)
  | other (equal : Option Units)
  deriving DecidableEq

/-- A dict is its items in insertion order. -/
inductive PyValue where
  | none
  | bool (b : Bool)
  | str (s : Units)
  | int (n : Int)
  | float (x : PyFloat)
  /-- A `Decimal`: `is_finite()` and `float(value)`. -/
  | decimal (finite : Bool) (double : PyFloat)
  /-- A `datetime`, `date` or `time`, by its ISO string. -/
  | temporal (iso : Units)
  | dict (items : List (Key × PyValue))
  | list (items : List PyValue)
  | tuple (items : List PyValue)
  /-- A pydantic model, by the dict its dump is. -/
  | model (dump : List (Key × PyValue))
  /-- Any other value pydantic encodes, by what `to_jsonable_python` answers. -/
  | encoded (answer : PyValue)
  /-- A value pydantic cannot encode. -/
  | unencodable
  deriving Inhabited

abbrev Items := List (Key × PyValue)

/-- A JSON-shaped value, or `ABSENT`. -/
abbrev View := Option PyValue

/-! ### One step -/

/-- `json_view`. -/
def jsonView : PyValue → View
  | .none => some .none
  | .bool b => some (.bool b)
  | .str s => some (.str s)
  | .dict items => some (.dict items)
  | .list items => some (.list items)
  | .tuple items => some (.tuple items)
  | .int n =>
    -- `bit_length() > 1023`, and then no double holds it
    if 2 ^ 1023 ≤ n.natAbs ∧ F64.ofInt n = none then some .none else some (.int n)
  | .float x => if x.isFinite then some (.float x) else some .none
  | .decimal finite double =>
    if !finite then some .none else if double.isFinite then some (.float double) else some .none
  | .temporal iso => some (.str iso)
  | .model dump => some (.dict dump)
  | .encoded answer => jsonView answer
  | .unencodable => none

/-- `array_element`: a member JSON drops is `null`. -/
def arrayElement (array : List PyValue) (index : Nat) : PyValue :=
  (array[index]?.bind jsonView).getD .none

/-- `_NON_STRING_FORMS`. -/
def nonStringForms : List Units :=
  ["true", "false", "null", "NaN", "Infinity", "-Infinity"].map code.text

/-- `_maybe_from_non_string`. -/
def maybeFromNonString (key : Units) : Bool :=
  nonStringForms.contains key ||
    match key with
    | [] => false
    | first :: _ => first = 45 || isDigit first

/-- The `str` a key equals. -/
def Key.string? : Key → Option Units
  | .str s => some s
  | .other equal => equal
  | _ => Option.none

def Key.isStr : Key → Bool
  | .str _ => true
  | _ => false

/-- The item `obj[key]` finds. -/
def lookup (items : Items) (key : Units) : Option (Key × PyValue) :=
  items.find? fun m => m.1.string? = some key

section Keys
variable (R : FloatRepr)

/-- `json_key`. -/
def jsonKey : Key → Option Units
  | .str s => some s
  | .bool true => some (code.text "true")
  | .bool false => some (code.text "false")
  | .none => some (code.text "null")
  | .int n => some (code.text (toString n))
  | .float .nan => some (code.text "NaN")
  | .float (.inf false) => some (code.text "Infinity")
  | .float (.inf true) => some (code.text "-Infinity")
  | .float (.finite f) => some (R.repr f)
  | .other _ => none

/-- The loop of `object_member`: the last item whose key writes as `key`. -/
def lastWritten (key : Units) : (found : Option PyValue) → Items → Option PyValue
  | found, [] => found
  | found, m :: rest => lastWritten key (if jsonKey R m.1 = some key then some m.2 else found) rest

/-- `object_member`. -/
def objectMember (items : Items) (key : Units) : View :=
  if !maybeFromNonString key then (lookup items key).bind fun m => jsonView m.2
  else (lastWritten R key none items).bind jsonView

/-! ### Equality with a literal -/

/-- A number of a filter, checked to be finite. -/
inductive Literal where
  | int (n : Int)
  | float (f : F64)

/-- `as_double`. -/
def Literal.asDouble : Literal → PyFloat
  | .int n => PyFloat.ofInt n
  | .float f => .finite f

/-- `as_double` of a number, and nothing where `is_number` fails. -/
def asDouble : PyValue → Option PyFloat
  | .int n => some (PyFloat.ofInt n)
  | .float x => some x
  | _ => none

/-- `members` of `json_equals`: keys that collide in JSON are one member. -/
def jsonMembers : (members : List (Units × PyValue)) → Items → List (Units × PyValue)
  | members, [] => members
  | members, m :: rest =>
    match jsonKey R m.1 with
    | some key => jsonMembers (Lib.Assoc.insert members key m.2) rest
    | none => jsonMembers members rest

/-- Counts the members JSON keeps and stops once there are more than `limit`. -/
def holdsExactly (limit : Nat) : (present : Nat) → List (Units × PyValue) → Bool
  | present, [] => present = limit
  | present, m :: rest =>
    match jsonView m.2 with
    | none => holdsExactly limit present rest
    | some _ => if present + 1 > limit then false else holdsExactly limit (present + 1) rest

mutual
/-- `json_equals`. -/
def jsonEquals (host : PyValue) : Json Units Literal → Bool
  | .null => match host with
    | .none => true
    | _ => false
  | .bool l => match host with
    | .bool h => h = l
    | _ => false
  | .number l => match asDouble host with
    | some h => h.eq l.asDouble
    | none => false
  | .string l => match host with
    | .str h => h = l
    | _ => false
  | .array ls => match host with
    | .list hs | .tuple hs => hs.length = ls.length && equalsItems hs 0 ls
    | _ => false
  | .object ls => match host with
    | .dict hs => equalsMembers hs ls && holdsExactly ls.length 0 (jsonMembers R [] hs)
    | _ => false
/-- The loop over the items of a literal. -/
def equalsItems (host : List PyValue) : (index : Nat) → List (Json Units Literal) → Bool
  | _, [] => true
  | index, l :: rest => jsonEquals (arrayElement host index) l && equalsItems host (index + 1) rest
/-- The loop over the members of a literal. -/
def equalsMembers (host : Items) : List (Units × Json Units Literal) → Bool
  | [] => true
  | m :: rest =>
    match objectMember R host m.1 with
    | none => false
    | some member => jsonEquals member m.2 && equalsMembers host rest
end

/-! ### The whole value -/

mutual
/-- `to_json_value`. -/
def toJsonValue : PyValue → View
  | .dict items => some (.dict (toJsonMembers items []))
  | .model dump => some (.dict (toJsonMembers dump []))
  | .list items => some (.list (toJsonItems items))
  | .tuple items => some (.list (toJsonItems items))
  | .encoded answer => toJsonValue answer
  | .none => jsonView .none
  | .bool b => jsonView (.bool b)
  | .str s => jsonView (.str s)
  | .int n => jsonView (.int n)
  | .float x => jsonView (.float x)
  | .decimal finite double => jsonView (.decimal finite double)
  | .temporal iso => jsonView (.temporal iso)
  | .unencodable => jsonView .unencodable
/-- The loop over a dict: the last colliding key wins, also when JSON drops it. -/
def toJsonMembers : Items → (out : Items) → Items
  | [], out => out
  | m :: rest, out =>
    match jsonKey R m.1 with
    | none => toJsonMembers rest out
    | some key =>
      match toJsonValue m.2 with
      | none => toJsonMembers rest (Lib.Assoc.erase out (.str key))
      | some mapped => toJsonMembers rest (Lib.Assoc.insert out (.str key) mapped)
/-- The loop over a list or a tuple. -/
def toJsonItems : List PyValue → List PyValue
  | [] => []
  | item :: rest => (toJsonValue item).getD .none :: toJsonItems rest
end

/-- `to_json_value` as the source has it: it converts what `json_view` shows. -/
theorem toJsonValue_eq : ∀ v : PyValue, toJsonValue R v = match jsonView v with
    | some (.dict items) => some (.dict (toJsonMembers R items []))
    | some (.list items) | some (.tuple items) => some (.list (toJsonItems R items))
    | other => other
  | .dict _ | .model _ | .list _ | .tuple _ | .none | .bool _ | .str _ | .temporal _ | .unencodable => rfl
  | .int n => by
    rw [toJsonValue, jsonView]
    split_ifs <;> rfl
  | .float x => by
    rw [toJsonValue, jsonView]
    split_ifs <;> rfl
  | .decimal finite double => by
    rw [toJsonValue, jsonView]
    split_ifs <;> rfl
  | .encoded answer => by
    rw [toJsonValue, jsonView]
    exact toJsonValue_eq answer

end Keys

end Iii.Python
