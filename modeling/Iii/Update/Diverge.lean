import Iii.Update.Mirror

/-! The branches the script does not mirror, and that each of them shows.

From related states, an operation on such a branch ends in different errors or in a
different value, so `Mirrored` is exact: it excludes nothing on which the two agree. -/
namespace Iii.Update
open Lib Filter Script

/-- What a caller sees of a state of the script: the value it would store and its errors. -/
def Shows (redis : Redis) (s : State) (t : Script.State) : Prop :=
  ∃ j', redis.encode t.current = some j' ∧ jsonEq s.current j' = true ∧ codes s.errors = codes t.errors

section Diverge
variable {redis : Redis} {s : State} {t : Script.State} {op : LuaValue} {i : Nat}

theorem Sim.shows (hredis : Faithful redis) (h : Sim s t) : Shows redis s t := by
  rcases h.root with hroot | hroot
  · have hdec := h.current
    rw [hroot] at hdec
    obtain ⟨fields, hfields, hrel⟩ := decodes_object.mp hdec
    have hnil : fields = [] := List.eq_nil_of_length_eq_zero hrel.length.symm
    subst hnil
    refine ⟨.object [], by simp [hfields, Redis.encode, Redis.encodeFields], ?_, h.errors⟩
    rw [hroot]
    simp [jsonEq, jsonEqMembers]
  · obtain ⟨j', hj', heq, -⟩ := encode_of_decodes hredis _ hroot _ h.current
    exact ⟨j', hj', heq, h.errors⟩

/-! ### Errors on one side only -/

theorem codes_ne_push {a b : List UpdateOpError} (h : codes a = codes b) (e : UpdateOpError) :
    codes (a ++ [e]) ≠ codes b := by
  intro heq
  have := congrArg List.length heq
  rw [codes_append, h] at this
  simp at this

/-- The engine reports an error, the script writes. -/
theorem not_shows_of_push (h : Sim s t) (e : UpdateOpError) (w : LuaValue) :
    ¬ Shows redis (s.push [e]) (t.write w) := by
  rintro ⟨_, -, -, hcodes⟩
  exact codes_ne_push h.errors e hcodes

/-- The script reports an error, the engine writes. -/
theorem not_shows_of_write (h : Sim s t) (e : UpdateOpError) (v : Value) :
    ¬ Shows redis (s.write v) (t.push [e]) := by
  rintro ⟨_, -, -, hcodes⟩
  exact codes_ne_push h.errors.symm e hcodes.symm

/-- An array root is a sequence with no fields. -/
theorem Sim.array (h : Sim s t) (harr : IsArray s.current) :
    ∃ items v vals, s.current = .array items ∧ t.current = .table (v :: vals) [] := by
  cases hc : s.current with
  | array items =>
    have hdec := h.current
    rw [hc] at hdec
    obtain ⟨vals, hvals, hall⟩ := decodes_array.mp hdec
    cases hall with
    | nil => exact absurd hc h.ne_nil
    | cons _ _ => exact ⟨_, _, _, rfl, hvals⟩
  | _ =>
    rw [hc] at harr
    exact harr.elim

/-- Fields added to a sequence make it an object. -/
theorem encode_mixed {v : LuaValue} {vals : List LuaValue} {fields : List (String × LuaValue)} {j' : Value}
    (hne : fields ≠ []) (h : redis.encode (.table (v :: vals) fields) = some j') :
    ∃ members, j' = .object members := by
  cases fields with
  | nil => exact absurd rfl hne
  | cons m rest =>
    rw [Redis.encode] at h
    simp only [Option.bind_eq_bind, Option.bind_eq_some_iff] at h
    obtain ⟨values, -, members, -, hj'⟩ := h
    exact ⟨_, (Option.some.inj hj').symm⟩

theorem encode_sequence {v : LuaValue} {vals : List LuaValue} {j' : Value}
    (h : redis.encode (.table (v :: vals) []) = some j') : ∃ items, j' = .array items := by
  rw [Redis.encode] at h
  obtain ⟨items, -, hj'⟩ := Option.map_eq_some_iff.mp h
  exact ⟨items, hj'.symm⟩

/-! ### Paths into an array root -/

variable {t' : Script.State}

theorem applySet_differs (h : Sim s t) {path : String} {value : Option Value}
    (hop : Decodes (opJson (.set path value)) op)
    (hm : ¬ Mirrored s.usingMissingDefault s.current (.set path value)) (ht' : Script.applySet i op t = some t') :
    ¬ Shows redis (applySet i path value s) t' := by
  unfold Mirrored at hm
  push Not at hm
  obtain ⟨hacc, hroot, harr⟩ := hm
  obtain ⟨items, v, vals, hcur, hlua⟩ := h.array harr
  have hpath := decodes_string.mp (index_some hop (k := "path") (j := .string path) rfl)
  have hv := (accepted_iff i).mp hacc
  have hv' : Script.validateOpPath "set" i ((fieldPathSegments path).map .string) = none := by
    have := validateOpPath_agree "set" i (fieldPathSegments path)
    simpa [hv] using this
  unfold Script.applySet at ht'
  simp only [hpath, getPath, fieldPathSegments_string, hv', isRoot, hroot, hlua, LuaValue.isTable,
    LuaValue.isNil, decide_false, Bool.false_and, Bool.false_eq_true, if_false, if_true,
    Option.some.injEq] at ht'
  unfold applySet
  simp only [hv, hroot, if_false, hcur]
  subst ht'
  exact not_shows_of_push h _ _

theorem applyRemove_differs (h : Sim s t) {path : String} (hop : Decodes (opJson (.remove path)) op)
    (hm : ¬ Mirrored s.usingMissingDefault s.current (.remove path)) (ht' : Script.applyRemove i op t = some t') :
    ¬ Shows redis (applyRemove i path s) t' := by
  unfold Mirrored at hm
  push Not at hm
  obtain ⟨hacc, hroot, harr⟩ := hm
  obtain ⟨items, v, vals, hcur, hlua⟩ := h.array harr
  have hpath := decodes_string.mp (index_some hop (k := "path") (j := .string path) rfl)
  have hv := (accepted_iff i).mp hacc
  have hv' : Script.validateOpPath "remove" i ((fieldPathSegments path).map .string) = none := by
    have := validateOpPath_agree "remove" i (fieldPathSegments path)
    simpa [hv] using this
  unfold Script.applyRemove at ht'
  simp only [hpath, getPath, fieldPathSegments_string, hv', isRoot, hroot, hlua, LuaValue.isTable,
    decide_false, Bool.false_eq_true, if_false, if_true, Option.some.injEq] at ht'
  unfold applyRemove
  simp only [hv, hroot, if_false, hcur]
  subst ht'
  exact not_shows_of_push h _ _

/-! ### Counting -/

theorem applyNumeric_differs {r : Numeric} {l : Script.Numeric} (hsim : NumericSim r l) (h : Sim s t)
    {path : String} {by_ : I64}
    (hop : Decodes (.object [("type", .string r.name), ("path", .string path), ("by", .number (.ofI64 by_))]) op)
    (hm : ¬ NumericMirrored r.name path s.usingMissingDefault s.current)
    (ht' : Script.applyNumeric l i op t = some t') : ¬ Shows redis (applyNumeric r i path by_ s) t' := by
  unfold NumericMirrored at hm
  push Not at hm
  obtain ⟨hacc, hm⟩ := hm
  have hpath := decodes_string.mp (index_some hop (k := "path") (j := .string path) rfl)
  have hv := (accepted_iff i).mp hacc
  have hv' : Script.validateOpPath r.name i ((fieldPathSegments path).map .string) = none := by
    have := validateOpPath_agree r.name i (fieldPathSegments path)
    simpa [hv] using this
  unfold Script.applyNumeric at ht'
  simp only [hpath, getPath, fieldPathSegments_string, ← hsim.name, hv'] at ht'
  unfold applyNumeric
  simp only [hv]
  by_cases hroot : path = ""
  · -- a missing field: the engine writes the amount, the script finds a table
    rw [if_pos hroot] at hm
    have hmissing : s.usingMissingDefault = true := by simpa using hm
    have hdec := h.current
    rw [h.missing hmissing] at hdec
    obtain ⟨fields, hfields, -⟩ := decodes_object.mp hdec
    simp only [isRoot, hroot, decide_true, if_true, h.flag, Bool.false_eq_true, if_false, hfields,
      Option.some.injEq] at ht'
    rw [if_pos hroot, if_pos hmissing]
    subst ht'
    exact not_shows_of_write h _ _
  · -- an array root: the script adds a field to it
    rw [if_neg hroot, not_not] at hm
    obtain ⟨items, v, vals, hcur, hlua⟩ := h.array hm
    simp only [isRoot, hroot, decide_false, Bool.false_eq_true, if_false, hlua, LuaValue.isTable, if_true,
      LuaValue.index, Assoc.get?_nil, Option.getD_none] at ht'
    obtain ⟨w, -, rfl⟩ := Option.map_eq_some_iff.mp ht'
    rw [if_neg hroot]
    simp only [hcur]
    exact not_shows_of_push h _ _

/-! ### Merging over an array root -/

theorem applyMerge_differs (h : Sim s t) {path : Option MergePath} {value : Value}
    (hop : Decodes (opJson (.merge path value)) op) (hvalue : OpTame (.merge path value))
    (hm : ¬ Mirrored s.usingMissingDefault s.current (.merge path value))
    (ht' : Script.applyMerge i op t = some t') : ¬ Shows redis (applyMerge i path value s) t' := by
  obtain ⟨hvt, hkeys⟩ := hvalue
  unfold Mirrored at hm
  push Not at hm
  obtain ⟨hacc, hmerge, harr⟩ := hm
  obtain ⟨items, v, vals, hcur, hlua⟩ := h.array harr
  have hval := value_agree hop
  have hv := (accepted_iff i).mp hacc
  have hv' : Script.validateOpPath "merge" i ((mergePathSegments path).map .string) = none := by
    have := validateOpPath_agree "merge" i (mergePathSegments path)
    simpa [hv] using this
  have hw := (validateMergeValue_none i value).mp hmerge
  have hw' : Script.validateMergeValue i (op.index (.string "value")) = none := by
    have := validateMergeValue_agree i hval hvt hkeys
    simpa [hw] using this
  unfold Script.applyMerge at ht'
  simp only [mergePathSegments_agree hop, hv', hw', List.isEmpty_map, hlua, LuaValue.isTable, if_true,
    Script.walkOrCreate, isObjectShape, Bool.false_eq_true, if_false] at ht'
  unfold applyMerge
  simp only [hv, hw]
  cases value with
  | object new =>
    obtain ⟨fields, hfields, hrel⟩ := decodes_object.mp hval
    simp only [hcur, walkOrCreate, asObject]
    by_cases hempty : (mergePathSegments path).isEmpty = true
    · -- the engine leaves the array alone, the script adds the fields to it
      rw [if_pos hempty] at ht' ⊢
      rintro ⟨j', hj', heq, -⟩
      cases ht'
      rw [hfields] at hj'
      have hne : Assoc.insertAll [] fields ≠ [] := by
        apply Assoc.insertAll_ne_nil
        rintro rfl
        exact (tame_object.mp hvt).1 (List.eq_nil_of_length_eq_zero hrel.length)
      obtain ⟨members, rfl⟩ := encode_mixed hne hj'
      rw [hcur] at heq
      simp [jsonEq] at heq
    · -- the engine replaces the array by an object, the script does nothing
      rw [if_neg hempty] at ht' ⊢
      obtain ⟨j, a, hwalk, hobj, -⟩ := walkNode_agree (mergePathSegments path) [] []
        Related.nil (fun m hm => by cases hm) (assignAll_sim hvt hval _)
      rw [hwalk]
      rintro ⟨j', hj', heq, -⟩
      cases ht'
      obtain ⟨items, rfl⟩ := encode_sequence hj'
      cases j with
      | object members => simp [State.write, jsonEq] at heq
      | _ => exact hobj
  | _ => simp [validateMergeValue] at hmerge

/-! ### Appending -/

/-- The value a path of keys leads to. -/
def leafAt : Value → List String → Option Value
  | v, [] => some v
  | .object members, seg :: rest => (Assoc.get? members seg).bind (leafAt · rest)
  | _, _ :: _ => none

/-- Equal values hold equal leaves. -/
theorem leafAt_of_jsonEq (segments : List String) : ∀ {a b x : Value}, jsonEq a b = true →
    leafAt a segments = some x → ∃ y, leafAt b segments = some y ∧ jsonEq x y = true := by
  induction segments with
  | nil =>
    intro a b x heq hx
    cases hx
    exact ⟨b, rfl, heq⟩
  | cons seg rest ih =>
    intro a b x heq hx
    cases a with
    | object members =>
      cases b with
      | object members' =>
        obtain ⟨j, hj, hx⟩ := Option.bind_eq_some_iff.mp hx
        obtain ⟨w, hw, heqw⟩ := ((jsonEq_object_iff _ _).mp heq).2 _ (Assoc.mem_of_get? hj)
        obtain ⟨y, hy, hxy⟩ := ih heqw hx
        exact ⟨y, Option.bind_eq_some_iff.mpr ⟨w, hw, hy⟩, hxy⟩
      | _ => simp [jsonEq] at heq
    | _ => simp [leafAt] at hx

theorem walkNode_exists {α : Type} (f : Members → Members × α) (segments : List String) :
    ∀ v, IsObject v → ∃ j a, walkNode f v segments = some (j, a) := by
  induction segments with
  | nil =>
    intro v hv
    cases v with
    | object members => exact ⟨_, _, rfl⟩
    | _ => exact hv.elim
  | cons seg rest ih =>
    intro v hv
    cases v with
    | object members =>
      obtain ⟨j, a, hj⟩ := ih (asObject ((Assoc.get? members seg).getD (.object []))) (by
        cases (Assoc.get? members seg).getD (.object []) <;> trivial)
      exact ⟨_, a, by rw [walkNode, hj]; rfl⟩
    | _ => exact hv.elim

/-- After a walk, the path leads to what the caller left under the last key. -/
theorem leafAt_walkNode {α : Type} {f : Members → Members × α} {k : String} (segments : List String) :
    ∀ {members : Members} {j : Value} {a : α}, walkNode f (.object members) segments = some (j, a) →
      leafAt j (segments ++ [k]) = Assoc.get? (f (reach members segments)).1 k := by
  induction segments with
  | nil =>
    intro members j a h
    cases h
    simp only [List.nil_append, leafAt, reach]
    cases Assoc.get? (f members).1 k <;> rfl
  | cons seg rest ih =>
    intro members j a h
    rw [walkNode] at h
    obtain ⟨⟨entry, b⟩, hentry, hj⟩ := Option.map_eq_some_iff.mp h
    cases hj
    have hnext : ∃ next, asObject ((Assoc.get? members seg).getD (.object [])) = .object next ∧
        reach members (seg :: rest) = reach next rest := by
      cases hget : Assoc.get? members seg with
      | none => exact ⟨[], by simp [asObject], by simp [reach, hget]⟩
      | some j =>
        cases j with
        | object next => exact ⟨next, rfl, by simp [reach, hget]⟩
        | _ => exact ⟨[], rfl, by simp [reach, hget]⟩
    obtain ⟨next, hnode, hreach⟩ := hnext
    rw [hnode] at hentry
    rw [List.cons_append, leafAt, Assoc.get?_insert, if_pos rfl, Option.bind_some, ih hentry, hreach]

/-- On a `null` leaf the script sets the value it would set on a missing one. -/
theorem appendLeaf_null_sim {leafKey : String} {missing : Value} {v missing' : LuaValue}
    (hm : Decodes missing missing') (hmissing : Tame missing) {members : Members}
    (hnull : Assoc.get? members leafKey = some .null) :
    TargetSim (fun _ _ => True) (fun target => (Assoc.insert target leafKey missing, ()))
      (Script.appendLeaf (.string leafKey) v missing' i) members := by
  intro fields hrel htame
  obtain ⟨w, hw, hdec⟩ := hrel.get? hnull
  rw [Decodes] at hdec
  subst hdec
  have hindex : (LuaValue.table [] fields).index (.string leafKey) = .null := by simp [LuaValue.index, hw]
  unfold Script.appendLeaf
  rw [hindex]
  simp only
  rw [setIndex_table hm.ne_nil]
  exact ⟨decodes_object.mpr ⟨_, rfl, hrel.insert leafKey hm⟩, tame_insert hrel.left htame leafKey hmissing,
    trivial⟩

/-- A string under a path of the one, an array under it in the other. -/
theorem not_jsonEq_of_leaf {a b c : Value} {segments : List String} {str : String} {items : List Value}
    (ha : leafAt a segments = some (.string str)) (hb : leafAt b segments = some (.array items))
    (hbc : jsonEq b c = true) : ¬ jsonEq a c = true := by
  intro hac
  obtain ⟨y, hy, hstr⟩ := leafAt_of_jsonEq segments hac ha
  obtain ⟨y', hy', harr⟩ := leafAt_of_jsonEq segments hbc hb
  rw [hy] at hy'
  cases hy'
  cases y with
  | string s => simp [jsonEq] at harr
  | _ => simp [jsonEq] at hstr

theorem applyAppend_differs (hredis : Faithful redis) (h : Sim s t) {path : Option MergePath} {value : Value}
    (hop : Decodes (opJson (.append path value)) op) (hvalue : OpTame (.append path value))
    (hm : ¬ Mirrored s.usingMissingDefault s.current (.append path value))
    (ht' : Script.applyAppend i op t = some t') : ¬ Shows redis (applyAppend i path value s) t' := by
  have hval := value_agree hop
  have hvt : Tame value := hvalue
  unfold Mirrored at hm
  rw [Classical.not_imp] at hm
  obtain ⟨hacc, hm⟩ := hm
  have hv := (accepted_iff i).mp hacc
  have hv' : Script.validateOpPath "append" i ((mergePathSegments path).map .string) = none := by
    have := validateOpPath_agree "append" i (mergePathSegments path)
    simpa [hv] using this
  unfold Script.applyAppend at ht'
  simp only [mergePathSegments_agree hop, hv'] at ht'
  unfold applyAppend
  simp only [hv]
  cases hsegs : mergePathSegments path with
  | nil =>
    simp only [hsegs] at hm
    simp only [hsegs, List.map_nil, h.flag, Bool.false_eq_true, if_false] at ht'
    -- either way the script finds the table `{}` and appends to it
    have hempty : s.current = .object [] := by
      by_cases hmissing : s.usingMissingDefault = true
      · exact h.missing hmissing
      · simpa [hmissing] using hm
    have hdec := h.current
    rw [hempty] at hdec
    obtain ⟨fields, hfields, hrel⟩ := decodes_object.mp hdec
    have hnil : fields = [] := List.eq_nil_of_length_eq_zero hrel.length.symm
    subst hnil
    simp only [hfields, Script.appendToTarget, isArray, List.isEmpty_nil, if_true, Option.some.injEq] at ht'
    subst ht'
    by_cases hmissing : s.usingMissingDefault = true
    · simp only [hmissing, if_true, not_not] at hm ⊢
      cases value with
      | string str =>
        rintro ⟨j', hj', heq, -⟩
        obtain ⟨items, rfl⟩ := encode_sequence hj'
        simp [appendToTarget, initialAppendValue, State.write, jsonEq] at heq
      | _ => exact hm.elim
    · simp only [hmissing, Bool.false_eq_true, if_false, hempty, appendToTarget]
      exact not_shows_of_push h _ _
  | cons seg rest =>
    cases rest with
    | nil => simp [hsegs] at hm
    | cons seg' rest =>
      simp only [hsegs, Classical.not_imp, not_not] at hm
      obtain ⟨hnull, hstr⟩ := hm
      cases hcur : s.current with
      | object members =>
        obtain ⟨fields, hfields, hrel, htame⟩ := h.object hcur
        rw [hcur] at hnull
        simp only [NullLeaf, List.getLast?_eq_getLast_of_ne_nil (List.cons_ne_nil seg (seg' :: rest))] at hnull
        have hlast : (LuaValue.string seg :: .string seg' :: rest.map .string).getLast (by simp) =
            .string ((seg :: seg' :: rest).getLast (by simp)) := by
          simp [← List.map_cons, List.getLast_map]
        have hinit : (LuaValue.string seg :: .string seg' :: rest.map .string).dropLast =
            (seg :: seg' :: rest).dropLast.map .string := by
          rw [← List.map_cons, ← List.map_cons, List.map_dropLast]
        obtain ⟨j₂, a₂, hwalk₂, -, htame₂, hdec₂, -⟩ := walkNode_agree (seg :: seg' :: rest).dropLast members
          fields hrel htame (appendLeaf_null_sim (i := i) (v := op.index (.string "value"))
            (singleton_agree hval) (tame_singleton hvt) hnull)
        obtain ⟨j₁, a₁, hwalk₁⟩ := walkNode_exists
          (appendLeaf ((seg :: seg' :: rest).getLast (by simp)) value (.array [value]) i)
          (seg :: seg' :: rest).dropLast (.object members) trivial
        simp only [hsegs, List.map_cons, hfields, isObjectShape, if_true, List.isEmpty_cons, Bool.false_eq_true,
          if_false, hlast, hinit, Script.walkOrCreate, Option.some.injEq] at ht'
        subst ht'
        simp only [List.isEmpty_cons, Bool.false_eq_true, if_false, walkOrCreate, asObject, hwalk₁]
        rintro ⟨j', hj', heq, -⟩
        obtain ⟨j'', hj'', heq₂, -⟩ := encode_of_decodes hredis _ htame₂ _ hdec₂
        simp only [Script.State.write] at hj'
        rw [hj''] at hj'
        cases hj'
        have hleaf₁ := leafAt_walkNode (k := (seg :: seg' :: rest).getLast (by simp)) _ hwalk₁
        have hleaf₂ := leafAt_walkNode (k := (seg :: seg' :: rest).getLast (by simp)) _ hwalk₂
        simp only [appendLeaf, hnull, appendToTarget, Assoc.get?_insert, if_true] at hleaf₁ hleaf₂
        cases value with
        | string str => exact not_jsonEq_of_leaf hleaf₁ hleaf₂ heq₂ heq
        | _ => exact hstr.elim
      | _ =>
        rw [hcur] at hnull
        exact hnull.elim

end Diverge

end Iii.Update
