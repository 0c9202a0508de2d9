import Iii.Update.Decode

/-! One operation in the engine and in the script.

`Sim` relates the two states: the script's value decodes the engine's, and the error
lists have the same indices and codes. Below its root a value holds nothing empty, so
the script can tell arrays from objects there; the root itself may be `{}`, once its
last field is removed or when the field was missing. -/
namespace Iii.Update
open Lib Filter Script

/-! ### Errors -/

def codeOf (e : UpdateOpError) : Nat × String := (e.opIndex, e.code)

def codes (errors : List UpdateOpError) : List (Nat × String) := errors.map codeOf

@[simp] theorem codeOf_err (i : Nat) (code message : String) : codeOf (err i code message) = (i, code) := rfl

@[simp] theorem codes_append (a b : List UpdateOpError) : codes (a ++ b) = codes a ++ codes b :=
  List.map_append ..

@[simp] theorem codes_singleton (e : UpdateOpError) : codes [e] = [codeOf e] := rfl

@[simp] theorem codes_nil : codes [] = [] := rfl

/-! ### Paths -/

theorem validateSegment_agree (opName : String) (i : Nat) (seg : String) :
    (Script.validateSegment opName i (.string seg)).map codeOf =
      (validateSegment opName i seg).map codeOf := by
  unfold Script.validateSegment validateSegment
  simp only [pathErrorCode_eq, Script.pathErrorCode]
  split
  · rfl
  · split
    · rfl
    · split <;> rfl

theorem findSome?_agree (opName : String) (i : Nat) (segments : List String) :
    ((segments.map LuaValue.string).findSome? (Script.validateSegment opName i)).map codeOf =
      (segments.findSome? (validateSegment opName i)).map codeOf := by
  rw [List.map_findSome?, List.map_findSome?, List.findSome?_map]
  congr 1
  funext seg
  exact validateSegment_agree opName i seg

/-- Both validators reject the same paths, with the same code. -/
theorem validateOpPath_agree (opName : String) (i : Nat) (segments : List String) :
    (Script.validateOpPath opName i (segments.map .string)).map codeOf =
      (validateOpPath opName i segments).map codeOf := by
  unfold Script.validateOpPath validateOpPath
  simp only [pathErrorCode_eq, Script.pathErrorCode, List.length_map]
  split
  · rfl
  · exact findSome?_agree opName i segments

@[simp] theorem fieldPathSegments_string (path : String) :
    Script.fieldPathSegments (.string path) = (fieldPathSegments path).map .string := by
  unfold Script.fieldPathSegments fieldPathSegments isRoot
  by_cases h : path = "" <;> simp [h]

/-! ### Reading an operation -/

variable {op : LuaValue} {j : Value}

theorem index_some {members : List (String × Value)} (h : Decodes (.object members) op) {k : String}
    (hj : Assoc.get? members k = some j) :
    Decodes j (op.index (.string k)) := by
  obtain ⟨fields, rfl, hrel⟩ := decodes_object.mp h
  obtain ⟨v, hv, hdec⟩ := hrel.get? hj
  rw [LuaValue.index, hv]
  exact hdec

theorem index_none {members : List (String × Value)} (h : Decodes (.object members) op) {key : String}
    (hj : Assoc.get? members key = none) : op.index (.string key) = .nil := by
  obtain ⟨fields, rfl, hrel⟩ := decodes_object.mp h
  rw [LuaValue.index, hrel.get?_none hj]
  rfl

theorem forall₂_string {segments : List String} {vals : List LuaValue}
    (h : List.Forall₂ Decodes (segments.map .string) vals) : vals = segments.map .string := by
  induction segments generalizing vals with
  | nil => exact List.forall₂_nil_left_iff.mp h
  | cons seg rest ih =>
    rw [List.map_cons] at h ⊢
    obtain ⟨v, more, hv, hmore, rfl⟩ := List.forall₂_cons_left_iff.mp h
    rw [decodes_string.mp hv, ih hmore]

/-- The script reads the segments of an optional path: absent, a string or an array. -/
theorem mergePathSegments_agree {name : String} {path : Option MergePath} {value : Value}
    (h : Decodes (.object ([("type", .string name)] ++ mergePathJson path ++ [("value", value)])) op) :
    Script.mergePathSegments (op.index (.string "path")) = (mergePathSegments path).map .string := by
  match path with
  | none =>
    rw [index_none h rfl]
    rfl
  | some (.single s) =>
    have hs := index_some h (k := "path") (j := .string s) rfl
    rw [decodes_string.mp hs, Script.mergePathSegments, mergePathSegments]
    split <;> rfl
  | some (.segments v) =>
    have hv := index_some h (k := "path") (j := .array (v.map .string)) rfl
    obtain ⟨vals, hvals, hall⟩ := decodes_array.mp hv
    rw [hvals, Script.mergePathSegments, forall₂_string hall]
    rfl

theorem value_agree {name : String} {path : Option MergePath} {value : Value}
    (h : Decodes (.object ([("type", .string name)] ++ mergePathJson path ++ [("value", value)])) op) :
    Decodes value (op.index (.string "value")) := by
  match path with
  | none => exact index_some h rfl
  | some (.single s) => exact index_some h rfl
  | some (.segments v) => exact index_some h rfl

/-! ### Shapes -/

def IsObject : Value → Prop
  | .object _ => True
  | _ => False

/-- Apart from an empty array, the shape of a table is the shape of the value. -/
theorem isObjectShape_agree {v : LuaValue} (h : Decodes j v) (hj : j ≠ .array []) :
    isObjectShape v = true ↔ ∃ members, j = .object members := by
  cases j with
  | array items =>
    obtain ⟨vals, rfl, hall⟩ := decodes_array.mp h
    cases hall with
    | nil => exact absurd rfl hj
    | cons _ _ => simp [isObjectShape]
  | object members =>
    obtain ⟨fields, rfl, -⟩ := decodes_object.mp h
    simp [isObjectShape]
  | number n =>
    obtain ⟨f, rfl, -⟩ := h
    simp [isObjectShape]
  | _ =>
    rw [Decodes] at h
    subst h
    simp [isObjectShape]

theorem isTable_agree {v : LuaValue} (h : Decodes j v) :
    v.isTable = true ↔ (∃ members, j = .object members) ∨ ∃ items, j = .array items := by
  cases j with
  | array items =>
    obtain ⟨vals, rfl, -⟩ := decodes_array.mp h
    simp [LuaValue.isTable]
  | object members =>
    obtain ⟨fields, rfl, -⟩ := decodes_object.mp h
    simp [LuaValue.isTable]
  | number n =>
    obtain ⟨f, rfl, -⟩ := h
    simp [LuaValue.isTable]
  | _ =>
    rw [Decodes] at h
    subst h
    simp [LuaValue.isTable]

theorem Tame.ne_nil (h : Tame j) : j ≠ .array [] := by
  rintro rfl
  exact (tame_array.mp h).1 rfl

def TameAll (members : Members) : Prop := ∀ m ∈ members, Tame m.2

theorem tame_insert {members : Members} (hd : Assoc.Distinct members) (h : TameAll members) (key : String)
    (hj : Tame j) : Tame (.object (Assoc.insert members key j)) := by
  rw [tame_object]
  refine ⟨Assoc.insert_ne_nil members key j, Assoc.distinct_insert hd key j, fun m hm => ?_⟩
  rcases Assoc.mem_insert hm with hm | rfl
  · exact h m hm
  · exact hj

theorem setIndex_table {items : List LuaValue} {fields : List (String × LuaValue)} {key : String}
    {v : LuaValue} (h : v ≠ .nil) :
    (LuaValue.table items fields).setIndex (.string key) v = .table items (Assoc.insert fields key v) := by
  cases v with
  | nil => exact absurd rfl h
  | _ => rfl

/-! ### Walking -/

/-- The object a walk arrives at, `{}` when the walk has to create it. -/
def reach : Members → List String → Members
  | members, [] => members
  | members, seg :: rest =>
    match Assoc.get? members seg with
    | some (.object next) => reach next rest
    | _ => reach [] rest

/-- What the two callers do to the target, related: the target becomes a non-empty object. -/
def TargetSim {α β : Type} (R : α → β → Prop) (f : Members → Members × α)
    (g : LuaValue → LuaValue × β) (members : Members) : Prop :=
  ∀ fields, Related members fields → TameAll members →
    Decodes (.object (f members).1) (g (.table [] fields)).1 ∧ Tame (.object (f members).1) ∧
      R (f members).2 (g (.table [] fields)).2

theorem walkNode_agree {α β : Type} {R : α → β → Prop} {f : Members → Members × α}
    {g : LuaValue → LuaValue × β} (segments : List String) :
    ∀ (members : Members) (fields : List (String × LuaValue)), Related members fields → TameAll members →
      TargetSim R f g (reach members segments) →
      ∃ j a, walkNode f (.object members) segments = some (j, a) ∧ IsObject j ∧ Tame j ∧
        Decodes j (Script.walkNode g (.table [] fields) (segments.map .string)).1 ∧
        R a (Script.walkNode g (.table [] fields) (segments.map .string)).2 := by
  induction segments with
  | nil =>
    intro members fields hrel htame hsim
    obtain ⟨hdec, hout, hR⟩ := hsim fields hrel htame
    exact ⟨_, _, rfl, trivial, hout, hdec, hR⟩
  | cons seg rest ih =>
    intro members fields hrel htame hsim
    -- the entry both sides descend into, existing or fresh
    have hentry : ∃ next nextFields, asObject ((Assoc.get? members seg).getD (.object [])) = .object next ∧
        (if isObjectShape ((LuaValue.table [] fields).index (.string seg))
          then (LuaValue.table [] fields).index (.string seg) else .table [] []) = .table [] nextFields ∧
        Related next nextFields ∧ TameAll next ∧ reach members (seg :: rest) = reach next rest := by
      have hfresh : TameAll [] := fun m hm => by cases hm
      obtain ⟨hj, hv⟩ | ⟨j, v, hj, hv, hdec⟩ := hrel.lookup seg
      · refine ⟨[], [], by simp [hj, asObject], ?_, Related.nil, hfresh, by simp [reach, hj]⟩
        simp [LuaValue.index, hv, isObjectShape]
      · have hjt := htame _ (Assoc.mem_of_get? hj)
        have hindex : (LuaValue.table [] fields).index (.string seg) = v := by simp [LuaValue.index, hv]
        rw [hindex]
        by_cases hshape : isObjectShape v = true
        · obtain ⟨next, rfl⟩ := (isObjectShape_agree hdec hjt.ne_nil).mp hshape
          obtain ⟨nextFields, rfl, hnext⟩ := decodes_object.mp hdec
          exact ⟨next, nextFields, by simp [hj, asObject], by rw [if_pos hshape], hnext,
            (tame_object.mp hjt).2.2, by simp [reach, hj]⟩
        · have hnot : ∀ members, j ≠ .object members := fun members h =>
            hshape ((isObjectShape_agree hdec hjt.ne_nil).mpr ⟨members, h⟩)
          refine ⟨[], [], ?_, by rw [if_neg hshape], Related.nil, hfresh, ?_⟩
          · rw [hj]
            cases j with
            | object members => exact absurd rfl (hnot members)
            | _ => rfl
          · rw [reach, hj]
            cases j with
            | object members => exact absurd rfl (hnot members)
            | _ => rfl
    obtain ⟨next, nextFields, hnode, hlua, hnext, hnextTame, hreach⟩ := hentry
    rw [hreach] at hsim
    obtain ⟨j, a, hwalk, -, htamej, hdec, hR⟩ := ih next nextFields hnext hnextTame hsim
    refine ⟨.object (Assoc.insert members seg j), a, ?_, trivial, tame_insert hrel.left htame seg htamej, ?_, ?_⟩
    · rw [walkNode, hnode, hwalk]
      rfl
    · simp only [List.map_cons, Script.walkNode, hlua]
      rw [setIndex_table hdec.ne_nil, decodes_object]
      exact ⟨_, rfl, hrel.insert seg hdec⟩
    · simp only [List.map_cons, Script.walkNode, hlua]
      exact hR

end Iii.Update
