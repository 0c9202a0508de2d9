import Iii.Filter.Path

/-! JSON Schema: which instances a schema takes.

A schema is a JSON value, as the format of a request or a response is. `validates` reads it the way the standard does,
keyword by keyword: what each keyword has to say of an instance, and which schemas it puts to which parts of it
(`applied`). References make a schema recursive, so the reading has a number of levels; an instance is valid when some
number of levels is enough to say so (`Valid`). Regular expressions and the keywords that are not read here are
parameters of the reading (`Dialect`): whatever these say, they only take instances away. -/
namespace Iii.Schema
open Filter

abbrev Members := List (String × Value)

/-- What the reading takes from elsewhere. -/
structure Dialect where
  /-- The regular expression is found in the name. -/
  pattern : String → String → Bool
  /-- The verdict of all other keywords of the schema object. -/
  other : Members → Value → Bool
  /-- The pointer that the fragment of a reference encodes. -/
  fragment : List Char → List Char
  /-- Only `%` encodes anything. -/
  plain : ∀ s, '%' ∉ s → fragment s = s

/-! ### References -/

/-- `replace` of a pattern of two characters by one. -/
def replacePair (a b c : Char) : List Char → List Char
  | x :: y :: rest => if x = a ∧ y = b then c :: replacePair a b c rest else x :: replacePair a b c (y :: rest)
  | rest => rest

/-- A reference token, `~1` for a slash and `~0` for a tilde. -/
def token (s : List Char) : String := String.ofList (replacePair '~' '0' '~' (replacePair '~' '1' '/' s))

def pointerStep (target : Value) (token : String) : Option Value :=
  match target with
  | .object map => Json.get? map token
  | .array items => (canonicalIndex token).bind fun i => items[i]?
  | _ => none

/-- `Value::pointer`: the value a JSON pointer leads to. -/
def pointer (document : Value) (p : List Char) : Option Value :=
  match p with
  | [] => some document
  | '/' :: _ => ((p.splitOn '/').tail.map token).foldlM pointerStep document
  | _ => none

variable (d : Dialect) (document : Value)

/-- The schema in the document that a reference `#…` names. -/
def refTarget (reference : String) : Option Value :=
  match reference.toList with
  | '#' :: rest => pointer document (d.fragment rest)
  | _ => none

/-! ### Keywords -/

/-- The names of the types of a value; an integer is a number too. -/
def typeNames : Value → List String
  | .null => ["null"]
  | .bool _ => ["boolean"]
  | .number (.float f) => if f.value % F64.one = 0 then ["number", "integer"] else ["number"]
  | .number _ => ["number", "integer"]
  | .string _ => ["string"]
  | .array _ => ["array"]
  | .object _ => ["object"]

/-- `type`. -/
def typeOk (schema : Members) (v : Value) : Bool :=
  match Json.get? schema "type" with
  | some (.string name) => (typeNames v).contains name
  | some (.array names) => names.any fun name =>
    match name with
    | .string name => (typeNames v).contains name
    | _ => false
  | _ => true

def membersAt (schema : Members) (keyword : String) : Members :=
  match Json.get? schema keyword with
  | some (.object members) => members
  | _ => []

def branchesAt (schema : Members) (keyword : String) : Option (List Value) :=
  match Json.get? schema keyword with
  | some (.array branches) => some branches
  | _ => none

/-- `properties`, `patternProperties` and `additionalProperties`: the schemas put to the member under `key`. -/
def memberSchemas (schema : Members) (key : String) : List Value :=
  let named := (Json.get? (membersAt schema "properties") key).toList
  let matched := ((membersAt schema "patternProperties").filter fun m => d.pattern m.1 key).map (·.2)
  if named.isEmpty && matched.isEmpty then (Json.get? schema "additionalProperties").toList else named ++ matched

/-- `prefixItems` and `items`: the schemas put to the item at `i`. An array under `items` is a tuple, as it was before
`prefixItems`. -/
def itemSchemas (schema : Members) (i : Nat) : List Value :=
  match (branchesAt schema "prefixItems").bind (·[i]?) with
  | some item => [item]
  | none =>
    match Json.get? schema "items" with
    | some (.array items) => items[i]?.toList
    | items => items.toList

/-- What must be valid under what for the instance to be valid under the schema: the target of `$ref` and the branches
of `allOf` are put to the instance, the other schemas to its members or items. -/
def applied (schema : Members) (v : Value) : List (Value × Value) :=
  (match Json.get? schema "$ref" with
    | some (.string reference) => (refTarget d document reference).toList.map (·, v)
    | _ => []) ++
  ((branchesAt schema "allOf").getD []).map (·, v) ++
  match v with
  | .object members => members.flatMap fun m => (memberSchemas d schema m.1).map (·, m.2)
  | .array items => items.zipIdx.flatMap fun item => (itemSchemas schema item.2).map (·, item.1)
  | _ => []

/-! ### Validity -/

/-- The verdict within `n` levels, if they are enough for one. -/
def validates : (n : Nat) → (schema v : Value) → Option Bool
  | 0, _, _ => none
  | _ + 1, .bool b, _ => some b
  | n + 1, .object schema, v => do
    let all ← (applied d document schema v).mapM fun o => validates n o.1 o.2
    let any ← ((branchesAt schema "anyOf").getD []).mapM fun branch => validates n branch v
    let one ← ((branchesAt schema "oneOf").getD []).mapM fun branch => validates n branch v
    return typeOk schema v && d.other schema v && all.all id
      && ((branchesAt schema "anyOf").isNone || any.any id)
      && ((branchesAt schema "oneOf").isNone || one.count true = 1)
  | _ + 1, _, _ => some true

/-- The instance is valid under the schema, whose references are into the document. -/
def Valid (schema v : Value) : Prop := ∃ n, validates d document n schema v = some true

/-- What a schema object says of an instance that is valid under it. -/
structure Meets (schema : Members) (v : Value) : Prop where
  type : typeOk schema v = true
  applied : ∀ o ∈ applied d document schema v, Valid d document o.1 o.2
  anyOf : ∀ branches, branchesAt schema "anyOf" = some branches → ∃ branch ∈ branches, Valid d document branch v
  oneOf : ∀ branches, branchesAt schema "oneOf" = some branches → ∃ branch ∈ branches, Valid d document branch v

variable {d document}

theorem not_valid_false (v : Value) : ¬ Valid d document (.bool false) v := by
  rintro ⟨n, h⟩
  cases n with
  | zero => cases h
  | succ n => cases h

theorem mapM_some {α β : Type} {f : α → Option β} {l : List α} {out : List β} (h : l.mapM f = some out) :
    (∀ a ∈ l, ∃ b ∈ out, f a = some b) ∧ ∀ b ∈ out, ∃ a ∈ l, f a = some b := by
  induction l generalizing out with
  | nil =>
    cases h
    simp
  | cons a rest ih =>
    rw [List.mapM_cons] at h
    cases ha : f a with
    | none => simp [ha] at h
    | some b =>
      cases hrest : rest.mapM f with
      | none => simp [ha, hrest] at h
      | some bs =>
        obtain rfl : b :: bs = out := by simpa [ha, hrest] using h
        obtain ⟨hto, hof⟩ := ih hrest
        rw [List.forall_mem_cons, List.forall_mem_cons]
        refine ⟨⟨⟨b, List.mem_cons_self, ha⟩, fun x hx => ?_⟩, ⟨a, List.mem_cons_self, ha⟩, fun y hy => ?_⟩
        · obtain ⟨y, hy, hxy⟩ := hto x hx
          exact ⟨y, List.mem_cons_of_mem _ hy, hxy⟩
        · obtain ⟨x, hx, hxy⟩ := hof y hy
          exact ⟨x, List.mem_cons_of_mem _ hx, hxy⟩

/-- Some branch of `anyOf` or `oneOf` takes the instance. -/
theorem exists_branch {n : Nat} {branches : List Value} {v : Value} {out : List Bool}
    (h : branches.mapM (fun branch => validates d document n branch v) = some out) (htrue : true ∈ out) :
    ∃ branch ∈ branches, Valid d document branch v := by
  obtain ⟨branch, hbranch, hvalid⟩ := (mapM_some h).2 true htrue
  exact ⟨branch, hbranch, n, hvalid⟩

/-- **Every keyword of a schema object holds of its instances.** -/
theorem meets_of_valid {schema : Members} {v : Value} (h : Valid d document (.object schema) v) :
    Meets d document schema v := by
  obtain ⟨n, h⟩ := h
  cases n with
  | zero => cases h
  | succ n =>
    rw [validates] at h
    simp only [Option.bind_eq_bind, Option.bind_eq_some_iff] at h
    obtain ⟨all, hall, any, hany, one, hone, h⟩ := h
    simp only [pure, Option.some.injEq, Bool.and_eq_true, Bool.or_eq_true, decide_eq_true_eq] at h
    obtain ⟨⟨⟨⟨htype, -⟩, hids⟩, hanyOf⟩, honeOf⟩ := h
    refine ⟨htype, fun o ho => ?_, fun branches hb => ?_, fun branches hb => ?_⟩
    · obtain ⟨b, hb, hob⟩ := (mapM_some hall).1 o ho
      have hid : b = true := List.all_eq_true.mp hids b hb
      exact ⟨n, by rw [hob, hid]⟩
    · rw [hb] at hany hanyOf
      obtain ⟨b, hmem, hid⟩ := List.any_eq_true.mp (hanyOf.resolve_left Bool.false_ne_true)
      exact exists_branch hany (hid ▸ hmem)
    · rw [hb] at hone honeOf
      have hcount : one.count true = 1 := honeOf.resolve_left Bool.false_ne_true
      exact exists_branch hone (List.count_pos_iff.mp (by omega))

end Iii.Schema
