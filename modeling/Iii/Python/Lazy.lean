import Iii.Python.Filter
import Iii.Python.Members
import Iii.Sdk.Respect

/-! Matching a host value lazily against matching its JSON.

`Seen` relates what the evaluator holds of one value when it reads the host value step by
step with what it holds when it reads `to_json_value` of it. A step into a dict or a list
keeps it, equality with a literal answers the same on both sides, and so every closure of
the compiler does (`host_related`).

One lookup is left out: the fast path of `object_member` asks the dict itself, which also
finds a key that only equals a `str`, where everything else goes by `json_key`. A value
is `Imitated` when a chain of lookups comes upon a member JSON keeps under such a key;
`lazy_exact` says that this is all that can tell the two readings apart. -/
namespace Iii.Python
open Filter Sdk Lib

/-! ### Host values -/

mutual
/-- `P` of every dict in the value, those pydantic makes included. -/
def PyValue.AllDicts (P : Items → Prop) : PyValue → Prop
  | .dict items => P items ∧ AllMembers P items
  | .model dump => P dump ∧ AllMembers P dump
  | .list items => AllItems P items
  | .tuple items => AllItems P items
  | .encoded answer => answer.AllDicts P
  | _ => True
def PyValue.AllMembers (P : Items → Prop) : Items → Prop
  | [] => True
  | m :: rest => m.2.AllDicts P ∧ AllMembers P rest
def PyValue.AllItems (P : Items → Prop) : List PyValue → Prop
  | [] => True
  | item :: rest => item.AllDicts P ∧ AllItems P rest
end

theorem PyValue.allMembers_iff {P : Items → Prop} (items : Items) :
    AllMembers P items ↔ ∀ m ∈ items, m.2.AllDicts P := by
  induction items with
  | nil => simp [AllMembers]
  | cons m rest ih => rw [AllMembers, ih, List.forall_mem_cons]

theorem PyValue.allItems_iff {P : Items → Prop} (items : List PyValue) :
    AllItems P items ↔ ∀ item ∈ items, item.AllDicts P := by
  induction items with
  | nil => simp [AllItems]
  | cons item rest ih => rw [AllItems, ih, List.forall_mem_cons]

theorem PyValue.AllDicts.view {P : Items → Prop} {v x : PyValue} (h : v.AllDicts P)
    (hv : jsonView v = some x) : x.AllDicts P := by
  fun_induction jsonView v with
  | case16 answer ih => exact ih h hv
  | case17 => cases hv
  | _ =>
    cases hv
    exact h

theorem PyValue.AllDicts.here {P : Items → Prop} {items : Items}
    (h : (PyValue.dict items).AllDicts P) : P items := h.1

theorem PyValue.AllDicts.member {P : Items → Prop} {items : Items}
    (h : (PyValue.dict items).AllDicts P) : ∀ m ∈ items, m.2.AllDicts P :=
  (allMembers_iff items).mp h.2

theorem PyValue.AllDicts.item {P : Items → Prop} {v : PyValue} {items : List PyValue}
    (h : v.AllDicts P) (hv : v = .list items ∨ v = .tuple items) : ∀ m ∈ items, m.AllDicts P := by
  rcases hv with rfl | rfl
  · exact (allItems_iff items).mp h
  · exact (allItems_iff items).mp h

/-- A host value: no dict holds two keys that equal one `str`. -/
def PyValue.Unique (v : PyValue) : Prop := v.AllDicts DistinctKeys

section Lazy
variable {R : FloatRepr}

/-! ### Imitated names -/

variable (R) in
/-- A chain of lookups comes upon a member JSON keeps under a key that equals a `str`
without being one. -/
inductive Imitated : PyValue → Prop where
  | here {v items key m} (hv : jsonView v = some (.dict items)) (hfast : maybeFromNonString key = false)
      (hfind : lookup items key = some m) (hstr : m.1.isStr = false)
      (hkept : (jsonView m.2).isSome = true) : Imitated v
  | member {v items key m} (hv : jsonView v = some (.dict items))
      (hlast : lastWritten R key none items = some m) (hm : Imitated m) : Imitated v
  | item {v x items m} (hv : jsonView v = some x) (hx : x = .list items ∨ x = .tuple items)
      (hmem : m ∈ items) (hm : Imitated m) : Imitated v

theorem Imitated.isSome {v : PyValue} (h : Imitated R v) : ∃ x, jsonView v = some x := by
  cases h with
  | here hv => exact ⟨_, hv⟩
  | member hv => exact ⟨_, hv⟩
  | item hv => exact ⟨_, hv⟩

theorem Imitated.of_view {v x : PyValue} (hv : jsonView v = some x) (h : Imitated R x) :
    Imitated R v := by
  have hsame : jsonView v = jsonView x := by rw [hv, jsonView_jsonView hv]
  cases h with
  | here hx hfast hfind hstr hkept => exact .here (hsame.trans hx) hfast hfind hstr hkept
  | member hx hlast hm => exact .member (hsame.trans hx) hlast hm
  | item hx hshape hmem hm => exact .item (hsame.trans hx) hshape hmem hm

/-- Where every key that equals a `str` is one, no name is imitated. -/
theorem not_imitated {v : PyValue}
    (h : v.AllDicts fun items => ∀ m ∈ items, m.1.string? ≠ none → m.1.isStr = true) :
    ¬ Imitated R v := by
  intro him
  induction him with
  | here hv _ hfind hstr _ =>
    obtain ⟨hmem, hname⟩ := lookup_some hfind
    rw [(h.view hv).here _ hmem (by rw [hname]; simp)] at hstr
    cases hstr
  | member hv hlast _ ih =>
    rcases lastWritten_mem hlast with hnone | ⟨m, hm, -, rfl⟩
    · cases hnone
    · exact ih ((h.view hv).member m hm)
  | item hv hx hmem _ ih => exact ih ((h.view hv).item hx _ hmem)

variable (R) in
/-- A value that both readers see alike, however deep they look. -/
structure Plain (v : PyValue) : Prop where
  unique : v.Unique
  honest : ¬ Imitated R v

theorem Plain.view {v x : PyValue} (h : Plain R v) (hv : jsonView v = some x) : Plain R x :=
  ⟨h.unique.view hv, fun him => h.honest (him.of_view hv)⟩

theorem Plain.member {items : Items} (h : Plain R (.dict items)) {key : Units} {m : PyValue}
    (hlast : lastWritten R key none items = some m) : Plain R m := by
  refine ⟨?_, fun him => h.honest (.member rfl hlast him)⟩
  rcases lastWritten_mem hlast with hnone | ⟨m', hm', -, rfl⟩
  · cases hnone
  · exact h.unique.member m' hm'

theorem Plain.item {v : PyValue} {items : List PyValue} (h : Plain R v)
    (hv : v = .list items ∨ v = .tuple items) : ∀ m ∈ items, Plain R m := by
  intro m hm
  have hview : jsonView v = some v := by rcases hv with rfl | rfl <;> rfl
  exact ⟨h.unique.item hv m hm, fun him => h.honest (.item hview hv hm him)⟩

/-- Both paths of `object_member` show the last item written under the name. -/
theorem objectMember_eq {items : Items} (hd : DistinctKeys items) (key : Units)
    (h : ∀ m, maybeFromNonString key = false → lookup items key = some m → m.1.isStr = false →
      jsonView m.2 = none) :
    objectMember R items key = (lastWritten R key none items).bind jsonView := by
  unfold objectMember
  cases hfast : maybeFromNonString key with
  | true => rfl
  | false =>
    rw [fast_lookup hd hfast]
    show (lookup items key).bind (fun m => jsonView m.2) = _
    cases hfind : lookup items key with
    | none => rfl
    | some m =>
      cases hstr : m.1.isStr with
      | true => simp [hstr]
      | false => simp [hstr, h m hfast hfind hstr]

theorem Plain.objectMember {items : Items} (h : Plain R (.dict items)) (key : Units) :
    objectMember R items key = (lastWritten R key none items).bind jsonView := by
  refine objectMember_eq h.unique.here key fun m hfast hfind hstr => ?_
  cases hkept : jsonView m.2 with
  | none => rfl
  | some x => exact absurd (.here rfl hfast hfind hstr (by rw [hkept]; rfl)) h.honest

/-! ### The two readings -/

def PyValue.scalar : PyValue → Bool
  | .dict _ | .list _ | .tuple _ => false
  | _ => true

variable (R) in
/-- What the evaluator holds of one value, read lazily and read eagerly. -/
inductive Seen : View → View → Prop where
  | absent : Seen none none
  | scalar {x} (h : x.scalar = true) : Seen (some x) (some x)
  | dict {items} (h : Plain R (.dict items)) :
      Seen (some (.dict items)) (some (.dict (toJsonMembers R items [])))
  | list {items} (h : ∀ m ∈ items, Plain R m) :
      Seen (some (.list items)) (some (.list (toJsonItems R items)))
  | tuple {items} (h : ∀ m ∈ items, Plain R m) :
      Seen (some (.tuple items)) (some (.list (toJsonItems R items)))

theorem Plain.seen {v : PyValue} (h : Plain R v) : Seen R (jsonView v) (toJsonValue R v) := by
  rw [toJsonValue_eq]
  cases hv : jsonView v with
  | none => exact .absent
  | some x =>
    have hx := h.view hv
    cases x with
    | dict items => exact .dict hx
    | list items => exact .list (hx.item (.inl rfl))
    | tuple items => exact .tuple (hx.item (.inr rfl))
    | _ => exact .scalar rfl

theorem Seen.isSome {x y : View} (h : Seen R x y) : x.isSome = y.isSome := by
  cases h <;> rfl

/-- Inside an array what is absent is `null`. -/
theorem Seen.getD {x y : View} (h : Seen R x y) : Seen R (some (x.getD .none)) (some (y.getD .none)) := by
  cases h with
  | absent => exact .scalar rfl
  | scalar h => exact .scalar h
  | dict h => exact .dict h
  | list h => exact .list h
  | tuple h => exact .tuple h

theorem toJsonItems_eq (items : List PyValue) :
    toJsonItems R items = items.map fun v => (toJsonValue R v).getD .none := by
  induction items with
  | nil => rfl
  | cons item rest ih => rw [toJsonItems, ih, List.map_cons]

theorem length_toJsonItems (items : List PyValue) : (toJsonItems R items).length = items.length := by
  rw [toJsonItems_eq, List.length_map]

theorem arrayElement_toJsonItems (items : List PyValue) (index : Nat) :
    arrayElement (toJsonItems R items) index = (items[index]?.bind (toJsonValue R)).getD .none := by
  rw [arrayElement, toJsonItems_eq, List.getElem?_map]
  cases items[index]? with
  | none => rfl
  | some v =>
    show (jsonView ((toJsonValue R v).getD .none)).getD .none = (toJsonValue R v).getD .none
    cases hmapped : toJsonValue R v with
    | none => rfl
    | some y => rw [Option.getD_some, jsonView_toJsonValue hmapped, Option.getD_some]

/-- An element stays an element of the same value. -/
theorem seen_element {items : List PyValue} (h : ∀ m ∈ items, Plain R m) (index : Nat) :
    Seen R (some (arrayElement items index)) (some (arrayElement (toJsonItems R items) index)) := by
  rw [arrayElement_toJsonItems, arrayElement]
  cases hget : items[index]? with
  | none => exact .scalar rfl
  | some v => exact (h v (List.mem_of_getElem? hget)).seen.getD

theorem objectMember_toJsonMembers (items : Items) (key : Units) :
    objectMember R (toJsonMembers R items []) key = (lastWritten R key none items).bind (toJsonValue R) := by
  have hconv : Converted (toJsonMembers R items []) := Converted.nil.toJsonMembers
  rw [hconv.objectMember, get?_toJsonMembers]

/-- A member stays a member of the same value. -/
theorem Plain.seen_member {items : Items} (h : Plain R (.dict items)) (key : Units) :
    Seen R (Python.objectMember R items key) (Python.objectMember R (toJsonMembers R items []) key) := by
  rw [h.objectMember, objectMember_toJsonMembers]
  cases hlast : lastWritten R key none items with
  | none => exact .absent
  | some m => exact (h.member hlast).seen

/-! ### Equality -/

theorem equalsItems_seen {items : List PyValue} (h : ∀ m ∈ items, Plain R m)
    {ls : List (Json Units Literal)}
    (hls : ∀ l ∈ ls, ∀ x y, Seen R (some x) (some y) → jsonEquals R x l = jsonEquals R y l) (index : Nat) :
    equalsItems R items index ls = equalsItems R (toJsonItems R items) index ls := by
  induction ls generalizing index with
  | nil => rfl
  | cons l rest ih =>
    rw [List.forall_mem_cons] at hls
    rw [equalsItems, equalsItems, hls.1 _ _ (seen_element h index), ih hls.2]

theorem equalsMembers_seen {items : Items} (h : Plain R (.dict items))
    {ls : List (Units × Json Units Literal)}
    (hls : ∀ m ∈ ls, ∀ x y, Seen R (some x) (some y) → jsonEquals R x m.2 = jsonEquals R y m.2) :
    equalsMembers R items ls = equalsMembers R (toJsonMembers R items []) ls := by
  induction ls with
  | nil => rfl
  | cons m rest ih =>
    rw [List.forall_mem_cons] at hls
    rw [equalsMembers, equalsMembers, ih hls.2]
    have hmember := h.seen_member m.1
    generalize objectMember R items m.1 = x, objectMember R (toJsonMembers R items []) m.1 = y at hmember
    cases x with
    | none =>
      cases hmember
      rfl
    | some x =>
      cases y with
      | none => cases hmember
      | some y =>
        show (jsonEquals R x m.2 && _) = (jsonEquals R y m.2 && _)
        rw [hls.1 x y hmember]

/-- `json_equals` answers the same on both sides. -/
theorem jsonEquals_seen (l : Json Units Literal) :
    ∀ x y, Seen R (some x) (some y) → jsonEquals R x l = jsonEquals R y l := by
  induction l using Json.ind with
  | null => intro x y h; cases h <;> rfl
  | bool b => intro x y h; cases h <;> rfl
  | number n => intro x y h; cases h <;> rfl
  | string s => intro x y h; cases h <;> rfl
  | array ls ih =>
    intro x y h
    cases h with
    | scalar _ => rfl
    | dict _ => rfl
    | list hitems =>
      rw [jsonEquals, jsonEquals, equalsItems_seen hitems ih, length_toJsonItems]
    | tuple hitems =>
      rw [jsonEquals, jsonEquals, equalsItems_seen hitems ih, length_toJsonItems]
  | object ls ih =>
    intro x y h
    cases h with
    | scalar _ => rfl
    | dict hdict =>
      rw [jsonEquals, jsonEquals, equalsMembers_seen hdict ih, holdsExactly_eq _ _ _ (Nat.zero_le _),
        holdsExactly_eq _ _ _ (Nat.zero_le _), present_toJsonMembers]
    | list _ => rfl
    | tuple _ => rfl

/-! ### Paths and operators -/

theorem step_seen (segments : List Sdk.Segment) {x y : View} (h : Seen R x y) :
    Seen R (step R segments x) (step R segments y) := by
  induction segments generalizing x y with
  | nil => exact h
  | cons segment rest ih =>
    cases h with
    | absent => exact .absent
    | scalar h =>
      rename_i v
      cases v with
      | dict items => cases h
      | list items => cases h
      | tuple items => cases h
      | _ => exact .absent
    | dict hdict => exact ih (hdict.seen_member segment.key)
    | list hitems =>
      rw [step, step, length_toJsonItems]
      cases segment.index with
      | none => exact .absent
      | some index =>
        show Seen R (if _ then _ else _) (if _ then _ else _)
        split_ifs
        · exact .absent
        · exact ih (seen_element hitems index)
    | tuple hitems =>
      rw [step, step, length_toJsonItems]
      cases segment.index with
      | none => exact .absent
      | some index =>
        show Seen R (if _ then _ else _) (if _ then _ else _)
        split_ifs
        · exact .absent
        · exact ih (seen_element hitems index)

theorem items_seen {x y : View} (h : Seen R x y) :
    Option.Rel (List.Forall₂ (Seen R)) (items x) (items y) := by
  have hitems : ∀ {items : List PyValue}, (∀ m ∈ items, Plain R m) → Option.Rel (List.Forall₂ (Seen R))
      (some ((List.range items.length).map fun index => some (arrayElement items index)))
      (some ((List.range (toJsonItems R items).length).map fun index =>
        some (arrayElement (toJsonItems R items) index))) := by
    intro items hplain
    rw [length_toJsonItems]
    refine .some ?_
    rw [List.forall₂_map_left_iff, List.forall₂_map_right_iff]
    exact List.forall₂_same.mpr fun index _ => seen_element hplain index
  cases h with
  | absent => exact .none
  | scalar h =>
    rename_i v
    cases v with
    | dict items => cases h
    | list items => cases h
    | tuple items => cases h
    | _ => exact .none
  | dict _ => exact .none
  | list h => exact hitems h
  | tuple h => exact hitems h

/-- An operator that asks something of a present value. -/
theorem any_seen {x y : View} (h : Seen R x y) {test : PyValue → Bool}
    (htest : ∀ v w, Seen R (some v) (some w) → test v = test w) : x.any test = y.any test := by
  cases x with
  | none =>
    cases h
    rfl
  | some v =>
    cases y with
    | none => cases h
    | some w => exact htest v w h

theorem all_seen {x y : View} (h : Seen R x y) {test : PyValue → Bool}
    (htest : ∀ v w, Seen R (some v) (some w) → test v = test w) : x.all test = y.all test := by
  cases x with
  | none =>
    cases h
    rfl
  | some v =>
    cases y with
    | none => cases h
    | some w => exact htest v w h

theorem member_seen (items : List Source) (v w : PyValue) (h : Seen R (some v) (some w)) :
    member R items v = member R items w :=
  any_respect fun item _ => jsonEquals_seen item v w h

/-- What a checked operator is, without the check. -/
theorem op_of_check {α : Type} {check : Except Error α} {f : α → OpFn Document View}
    {op : OpFn Document View} (h : (do let a ← check; pure (f a)) = .ok op) : ∃ a, op = f a := by
  cases check with
  | error e => cases h
  | ok a =>
    cases h
    exact ⟨a, rfl⟩

theorem parseBound_seen {path name : Units} {o : OpName} {operand : Source} {op : OpFn Document View}
    (h : parseBound path name o operand = .ok op) {x y : View} (hxy : Seen R x y) (d d' : Document) :
    op x d = op y d' := by
  cases operand with
  | number bound =>
    cases h
    cases hxy <;> rfl
  | string bound =>
    cases h
    cases hxy <;> rfl
  | _ => cases h

/-- Every operator but `$any` answers the same on both sides. -/
theorem parseLeaf_seen {path name : Units} {operand : Source} {op : OpFn Document View}
    (h : parseLeaf R path name operand = .ok op) {x y : View} (hxy : Seen R x y) (d d' : Document) :
    op x d = op y d' := by
  unfold parseLeaf at h
  split at h
  case h_1 =>
    obtain ⟨_, rfl⟩ := op_of_check h
    exact any_seen hxy fun v w hvw => jsonEquals_seen operand v w hvw
  case h_2 =>
    obtain ⟨_, rfl⟩ := op_of_check h
    exact all_seen hxy fun v w hvw => congrArg Bool.not (jsonEquals_seen operand v w hvw)
  case h_3 =>
    obtain ⟨items, rfl⟩ := op_of_check h
    exact any_seen hxy (member_seen items)
  case h_4 =>
    obtain ⟨items, rfl⟩ := op_of_check h
    exact all_seen hxy fun v w hvw => congrArg Bool.not (member_seen items v w hvw)
  case h_5 => exact parseBound_seen h hxy d d'
  case h_6 => exact parseBound_seen h hxy d d'
  case h_7 => exact parseBound_seen h hxy d d'
  case h_8 => exact parseBound_seen h hxy d d'
  case h_9 =>
    cases operand with
    | bool expected =>
      cases h
      exact congrArg (fun present => decide (present = expected)) hxy.isSome
    | _ => cases h
  case h_10 =>
    cases operand with
    | string p =>
      cases h
      cases hxy <;> rfl
    | _ => cases h
  case h_11 => cases h
  case h_12 => cases h
  case h_13 => cases h

/-! ### Documents -/

/-- The document `to_json_value` makes. -/
def toJsonDocument (R : FloatRepr) (doc : Document) : Document := toJsonMembers R doc []

variable (R) in
/-- Both documents hold every root alike. -/
def SameRoots (d d' : Document) : Prop :=
  ∀ root, root ≠ .element → Seen R (docMember d root) (docMember d' root)

theorem host_related : Related (host R) (SameRoots R) (Seen R) (Seen R) where
  resolve := by
    intro p d d' el el' hd he
    refine step_seen p.segments ?_
    by_cases hroot : p.root = .element
    · rw [if_pos hroot, if_pos hroot]
      exact he
    · rw [if_neg hroot, if_neg hroot]
      exact hd p.root hroot
  items := items_seen
  view := fun h => h
  leaf := fun h _ _ d d' hw _ => parseLeaf_seen h hw d d'

/-- A compiled filter is what the compiler makes of its clauses. -/
theorem compileSource_ok {src : Source} {f : Compiled} (h : compileSource R src = .ok f) :
    ∃ clauses roots, compileClauses (host R) src = .ok (clauses, roots) ∧
      f = ⟨andPred clauses, roots, clauses.isEmpty⟩ := by
  cases src with
  | object obj =>
    simp only [compileSource] at h
    cases hcheck : checkJson R (.object obj) with
    | error e =>
      rw [hcheck] at h
      cases h
    | ok _ =>
      rw [hcheck] at h
      cases hclauses : compileClauses (host R) (.object obj) with
      | error e =>
        rw [hclauses] at h
        cases h
      | ok r =>
        rw [hclauses] at h
        cases h
        exact ⟨r.1, r.2, rfl, rfl⟩
  | _ => cases h

/-- Where every root is seen alike, every filter answers alike. -/
theorem matches_seen {d d' : Document} (hd : SameRoots R d d') {src : Source} {f : Compiled}
    (h : compileSource R src = .ok f) : f.matches d = f.matches d' := by
  obtain ⟨clauses, roots, hclauses, rfl⟩ := compileSource_ok h
  have hnull : Seen R (some .none) (some .none) := .scalar rfl
  have hpred := andPred_respects (compileClauses_respect host_related hclauses) d d' _ _ hd hnull
  unfold Compiled.matches
  exact congrArg (fun answer => if clauses.isEmpty = true then true else answer) hpred

variable (R) in
/-- A lookup in the document, or below one of its roots, comes upon an imitated name. -/
def DocImitated (doc : Document) : Prop :=
  ∃ root, root ≠ Root.element ∧ ∃ m, lookup doc (code.text (rootName root)) = some m ∧
    (m.1.isStr = false ∧ (jsonView m.2).isSome = true ∨ Imitated R m.2)

/-- Where every key that equals a `str` is one, no document imitates a name. -/
theorem not_docImitated {doc : Document}
    (h : (PyValue.dict doc).AllDicts fun items => ∀ m ∈ items, m.1.string? ≠ none → m.1.isStr = true) :
    ¬ DocImitated R doc := by
  rintro ⟨root, -, m, hfind, hm⟩
  obtain ⟨hmem, hname⟩ := lookup_some hfind
  rcases hm with ⟨hstr, -⟩ | him
  · rw [h.here m hmem (by rw [hname]; simp)] at hstr
    cases hstr
  · exact not_imitated (h.member m hmem) him

theorem rootName_fast (root : Root) : maybeFromNonString (code.text (rootName root)) = false := by
  cases root <;> decide

theorem docMember_eq (doc : Document) (root : Root) :
    docMember doc root = objectMember R doc (code.text (rootName root)) := by
  rw [objectMember, rootName_fast]
  rfl

theorem docMember_toJsonDocument (doc : Document) (root : Root) :
    docMember (toJsonDocument R doc) root =
      (lastWritten R (code.text (rootName root)) none doc).bind (toJsonValue R) := by
  rw [docMember_eq (R := R), toJsonDocument, objectMember_toJsonMembers]

/-- Without imitated names the converted document has the same roots. -/
theorem sameRoots_toJsonDocument {doc : Document} (hd : (PyValue.dict doc).Unique)
    (h : ¬ DocImitated R doc) : SameRoots R doc (toJsonDocument R doc) := by
  intro root hroot
  rw [docMember_toJsonDocument, docMember_eq (R := R), objectMember_eq hd.here]
  · rw [fast_lookup hd.here (rootName_fast root)]
    cases hfind : lookup doc (code.text (rootName root)) with
    | none => exact .absent
    | some m =>
      have hplain : Plain R m.2 := ⟨hd.member m (lookup_some hfind).1,
        fun him => h ⟨root, hroot, m, hfind, .inr him⟩⟩
      cases hstr : m.1.isStr with
      | true => simpa [hstr] using hplain.seen
      | false => simpa [hstr] using Seen.absent
  · intro m _ hfind hstr
    cases hkept : jsonView m.2 with
    | none => rfl
    | some x => exact absurd ⟨root, hroot, m, hfind, .inl ⟨hstr, by rw [hkept]; rfl⟩⟩ h

/-! ### What tells the readings apart -/

/-- The last item written under a name is the member the dict shows. -/
theorem objectMember_of_lastWritten {items : Items} (hd : DistinctKeys items) {key : Units} {m : PyValue}
    (hlast : lastWritten R key none items = some m) : objectMember R items key = jsonView m := by
  rw [objectMember_eq hd, hlast, Option.bind_some]
  intro m' hfast hfind hstr
  rw [fast_lookup hd hfast, hfind, Option.bind_some, hstr] at hlast
  cases hlast

/-- An imitated name is at the end of a path: one reading is there and the other is not. -/
theorem Imitated.path {v : PyValue} (h : Imitated R v) (hu : v.Unique) :
    ∃ segments, (step R segments (jsonView v)).isSome ≠ (step R segments (toJsonValue R v)).isSome := by
  induction h with
  | @here v items key m hv hfast hfind hstr hkept =>
    refine ⟨[⟨key, canonicalIndex key⟩], ?_⟩
    have hlazy : objectMember R items key = jsonView m.2 := by
      rw [objectMember, hfast]
      show (lookup items key).bind (fun m => jsonView m.2) = _
      rw [hfind, Option.bind_some]
    have heager : objectMember R (toJsonMembers R items []) key = none := by
      rw [objectMember_toJsonMembers, fast_lookup (hu.view hv).here hfast, hfind, Option.bind_some, hstr]
      rfl
    rw [toJsonValue_eq, hv]
    show (objectMember R items key).isSome ≠ (objectMember R (toJsonMembers R items []) key).isSome
    rw [hlazy, heager, hkept]
    decide
  | @member v items key m hv hlast hm ih =>
    have hmu : m.Unique := by
      rcases lastWritten_mem hlast with hnone | ⟨m', hm', -, rfl⟩
      · cases hnone
      · exact (hu.view hv).member m' hm'
    obtain ⟨segments, hdiff⟩ := ih hmu
    refine ⟨⟨key, canonicalIndex key⟩ :: segments, ?_⟩
    rw [toJsonValue_eq, hv]
    show (step R segments (objectMember R items key)).isSome ≠
      (step R segments (objectMember R (toJsonMembers R items []) key)).isSome
    rw [objectMember_of_lastWritten (hu.view hv).here hlast, objectMember_toJsonMembers, hlast, Option.bind_some]
    exact hdiff
  | @item v x items m hv hx hmem hm ih =>
    obtain ⟨index, hlt, hget⟩ := List.getElem_of_mem hmem
    obtain ⟨segments, hdiff⟩ := ih ((hu.view hv).item hx m hmem)
    obtain ⟨shown, hshown⟩ := hm.isSome
    refine ⟨⟨code.text (toString index), some index⟩ :: segments, ?_⟩
    have hget? : items[index]? = some m := by rw [List.getElem?_eq_getElem hlt, hget]
    have hlazy : some (arrayElement items index) = jsonView m := by
      rw [arrayElement, hget?, Option.bind_some, hshown, Option.getD_some]
    have heager : some (arrayElement (toJsonItems R items) index) = toJsonValue R m := by
      rw [arrayElement_toJsonItems, hget?, Option.bind_some]
      cases hmapped : toJsonValue R m with
      | none =>
        have hsome := isSome_toJsonValue (R := R) m
        rw [hmapped, hshown] at hsome
        cases hsome
      | some y => rfl
    have hstep : ∀ array : List PyValue, index < array.length →
        step R (⟨code.text (toString index), some index⟩ :: segments) (some (.list array)) =
            step R segments (some (arrayElement array index)) ∧
          step R (⟨code.text (toString index), some index⟩ :: segments) (some (.tuple array)) =
            step R segments (some (arrayElement array index)) := by
      intro array hbound
      exact ⟨if_neg (Nat.not_le.mpr hbound), if_neg (Nat.not_le.mpr hbound)⟩
    have hlast := hstep (toJsonItems R items) (by rwa [length_toJsonItems])
    rw [toJsonValue_eq, hv]
    rcases hx with rfl | rfl
    · show (step R _ (some (.list items))).isSome ≠ (step R _ (some (.list (toJsonItems R items)))).isSome
      rw [(hstep items hlt).1, hlast.1, hlazy, heager]
      exact hdiff
    · show (step R _ (some (.tuple items))).isSome ≠ (step R _ (some (.list (toJsonItems R items)))).isSome
      rw [(hstep items hlt).2, hlast.1, hlazy, heager]
      exact hdiff

theorem DocImitated.path {doc : Document} (h : DocImitated R doc) (hd : (PyValue.dict doc).Unique) :
    ∃ p : Sdk.Path, ∀ element, (resolve R p doc element).isSome ≠
      (resolve R p (toJsonDocument R doc) element).isSome := by
  obtain ⟨root, hroot, m, hfind, him⟩ := h
  have hlazy : docMember doc root = jsonView m.2 := by
    rw [docMember, hfind, Option.bind_some]
  have heager : docMember (toJsonDocument R doc) root =
      if m.1.isStr = true then toJsonValue R m.2 else none := by
    rw [docMember_toJsonDocument, fast_lookup hd.here (rootName_fast root), hfind, Option.bind_some]
    cases m.1.isStr <;> rfl
  have hresolve : ∀ (segments : List Sdk.Segment) (doc : Document) (element : View),
      resolve R ⟨root, segments⟩ doc element = step R segments (docMember doc root) := by
    intro segments doc element
    rw [resolve, if_neg hroot]
  by_cases hhere : m.1.isStr = false ∧ (jsonView m.2).isSome = true
  · refine ⟨⟨root, []⟩, fun element => ?_⟩
    rw [hresolve, hresolve, hlazy, heager, hhere.1]
    show (jsonView m.2).isSome ≠ false
    rw [hhere.2]
    decide
  · have him := him.resolve_left hhere
    obtain ⟨shown, hshown⟩ := him.isSome
    have hstr : m.1.isStr = true := by
      cases hstr : m.1.isStr with
      | true => rfl
      | false => exact absurd ⟨hstr, by rw [hshown]; rfl⟩ hhere
    obtain ⟨segments, hdiff⟩ := him.path (hd.member m (lookup_some hfind).1)
    refine ⟨⟨root, segments⟩, fun element => ?_⟩
    rw [hresolve, hresolve, hlazy, heager, if_pos hstr]
    exact hdiff

end Lazy

theorem oneHalf_exp : 1022 ≤ 2045 := by decide

/-- The double `1.5`. -/
def oneHalf : F64 := ⟨false, 3 * 2 ^ 51, 1022, by decide, oneHalf_exp, fun _ => by decide⟩

/-- `float.__repr__` of `1.5`, and of `0.0` where a name needs no more. -/
def shortRepr : FloatRepr where
  repr := fun f => if f = oneHalf then code.text "1.5" else code.text "0.0"
  first := by
    intro f
    split
    · exact ⟨49, [46, 53], rfl, .inr rfl⟩
    · exact ⟨48, [46, 48], rfl, .inr rfl⟩

/-- Keys that collide in JSON, a key it cannot write, members it drops and a tuple. -/
def collisions : Document :=
  [(.str (code.text "input"), .dict
    [(.str (code.text "1"), .str (code.text "b")), (.int 1, .unencodable),
      (.float (.finite oneHalf), .tuple [.dict [(.bool true, .int 5)], .unencodable]),
      (.other none, .int 6)])]

/-- What JSON makes of that input. -/
def collisionsJson : Source :=
  .object [(code.text "input", .object [(code.text "$eq", .object
    [(code.text "1.5", .array [.object [(code.text "true", .number (.int 5))], .null])])])]

/-- `{"input": {UserString("a"): 1}}`. -/
def userString : Document :=
  [(.str (code.text "input"), .dict [(.other (some (code.text "a")), .int 1)])]

/-- `{"input.a": {"$exists": true}}`. -/
def existsA : Source :=
  .object [(code.text "input.a", .object [(code.text "$exists", .bool true)])]

end Iii.Python
