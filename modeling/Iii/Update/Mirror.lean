import Iii.Update.Step

/-! Runs of operations: while every operation takes a mirrored branch, the script's state
follows the engine's. -/
namespace Iii.Update
open Lib Filter Script

/-! ### Where the script mirrors the engine -/

def IsArray : Value → Prop
  | .array _ => True
  | _ => False

instance : DecidablePred IsArray := fun
  | .array _ => .isTrue trivial
  | .null | .bool _ | .number _ | .string _ | .object _ => .isFalse id

instance : DecidablePred (fun v : Value => v = .object []) := fun
  | .object [] => .isTrue rfl
  | .object (_ :: _) => .isFalse (by simp)
  | .null | .bool _ | .number _ | .string _ | .array _ => .isFalse (by simp)

def IsNull : Value → Prop
  | .null => True
  | _ => False

def Accepted (opName : String) (segments : List String) : Prop := validateOpPath opName 0 segments = none

/-- The leaf of a path of two segments or more is present and `null`. -/
def NullLeaf : Value → List String → Prop
  | .object members, segments =>
    match segments.getLast? with
    | some leafKey => Assoc.get? (reach members segments.dropLast) leafKey = some .null
    | none => False
  | _, _ => False

/-- The branches on which the script does what the engine does, by the state before the
operation. The others: a path into an array root, a merge over an array root, a count at
the root of a missing field, a string appended at the root of a missing field, an append
at the root of `{}`, and a string appended to a nested `null`. -/
def Mirrored (missing : Bool) (current : Value) : UpdateOp → Prop
  | .set path _ => Accepted "set" (fieldPathSegments path) → path = "" ∨ ¬ IsArray current
  | .remove path => Accepted "remove" (fieldPathSegments path) → path = "" ∨ ¬ IsArray current
  | .increment path _ => Accepted "increment" (fieldPathSegments path) →
      if path = "" then missing = false else ¬ IsArray current
  | .decrement path _ => Accepted "decrement" (fieldPathSegments path) →
      if path = "" then missing = false else ¬ IsArray current
  | .merge path value => Accepted "merge" (mergePathSegments path) → validateMergeValue 0 value = none →
      ¬ IsArray current
  | .append path value => Accepted "append" (mergePathSegments path) →
      match mergePathSegments path with
      | [] => if missing then ¬ IsString value else current ≠ .object []
      | [_] => True
      | segments => NullLeaf current segments → ¬ IsString value

/-! ### Inputs -/

/-- Nothing empty, safe integers, and at most 1024 keys in a merge. -/
def OpTame : UpdateOp → Prop
  | .set _ value => Tame (value.getD .null)
  | .merge _ value => Tame value ∧ ∀ members, value = .object members → members.length ≤ maxValueKeys
  | .increment _ by_ => (Number.ofI64 by_).Safe
  | .decrement _ by_ => (Number.ofI64 by_).Safe
  | .append _ value => Tame value
  | .remove _ => True

/-- Every number of the value is an integer within ±2^53. -/
def Safe (v : Value) : Prop := Json.All (fun _ => True) Number.Safe v

theorem Safe.get? {members : Members} (h : Safe (.object members)) {k : String} {n : Number}
    (hn : Assoc.get? members k = some (.number n)) : n.Safe :=
  (Json.all_object.mp h _ (Assoc.mem_of_get? hn)).2

/-! ### Related states -/

structure Sim (s : State) (t : Script.State) : Prop where
  current : Decodes s.current t.current
  /-- Only the root may be empty, and then it is `{}`. -/
  root : s.current = .object [] ∨ Tame s.current
  missing : s.usingMissingDefault = true → s.current = .object []
  /-- The script reads `false` for a missing field and compares it with `nil`. -/
  flag : t.usingMissingDefault = false
  errors : codes s.errors = codes t.errors

section Sim
variable {s : State} {t : Script.State}

theorem Sim.push (h : Sim s t) {e e' : List UpdateOpError} (he : codes e = codes e') :
    Sim (s.push e) (t.push e') :=
  ⟨h.current, h.root, h.missing, h.flag, by simp [State.push, Script.State.push, h.errors, he]⟩

theorem Sim.write (h : Sim s t) {v : Value} {w : LuaValue} (hdec : Decodes v w)
    (hroot : v = .object [] ∨ Tame v) : Sim (s.write v) (t.write w) :=
  ⟨hdec, hroot, fun hm => (Bool.false_ne_true hm).elim, rfl, h.errors⟩

theorem Sim.ne_nil (h : Sim s t) : s.current ≠ .array [] := by
  rcases h.root with hroot | hroot
  · rw [hroot]
    simp
  · exact hroot.ne_nil

theorem Sim.object (h : Sim s t) {members : Members} (hcur : s.current = .object members) :
    ∃ fields, t.current = .table [] fields ∧ Related members fields ∧ TameAll members := by
  have hdec := h.current
  rw [hcur] at hdec
  obtain ⟨fields, hfields, hrel⟩ := decodes_object.mp hdec
  refine ⟨fields, hfields, hrel, ?_⟩
  rcases h.root with hroot | hroot
  · rw [hcur] at hroot
    cases hroot
    exact fun m hm => by cases hm
  · rw [hcur] at hroot
    exact (tame_object.mp hroot).2.2

/-- A root that is neither object nor array is no table. -/
theorem Sim.not_isTable (h : Sim s t) (hobj : ∀ members, s.current ≠ .object members)
    (harr : ¬ IsArray s.current) : t.current.isTable = false := by
  rw [Bool.eq_false_iff]
  intro htable
  rcases (isTable_agree h.current).mp htable with ⟨members, hm⟩ | ⟨items, hi⟩
  · exact hobj members hm
  · rw [hi] at harr
    exact harr trivial

/-- Both validators reject, with one code, or both accept. -/
theorem rejected_or_accepted {a b : Option UpdateOpError} (h : a.map codeOf = b.map codeOf) :
    (∃ e e', a = some e ∧ b = some e' ∧ codeOf e = codeOf e') ∨ (a = none ∧ b = none) := by
  cases a <;> cases b <;> simp at h ⊢
  exact h

theorem isSome_validateSegment (opName : String) (i : Nat) (seg : String) :
    (validateSegment opName i seg).isSome = (validateSegment opName 0 seg).isSome := by
  unfold validateSegment
  split
  · rfl
  · split
    · rfl
    · split <;> rfl

/-- Whether a path is accepted does not depend on the index. -/
theorem accepted_iff {opName : String} {segments : List String} (i : Nat) :
    Accepted opName segments ↔ validateOpPath opName i segments = none := by
  unfold Accepted validateOpPath
  split
  · simp
  · rw [List.findSome?_eq_none_iff, List.findSome?_eq_none_iff]
    refine forall_congr' fun seg => imp_congr_right fun _ => ?_
    rw [← Option.isSome_eq_false_iff.trans Option.isNone_iff_eq_none,
      ← Option.isSome_eq_false_iff.trans Option.isNone_iff_eq_none, isSome_validateSegment opName i]

theorem validateMergeValue_none (i : Nat) (value : Value) :
    validateMergeValue 0 value = none ↔ validateMergeValue i value = none := by
  cases value with
  | object members =>
    unfold validateMergeValue
    simp only
    split
    · simp
    · split
      · simp
      · split <;> simp
  | _ => simp [validateMergeValue]

variable {op : LuaValue} {i : Nat}

theorem applySet_agree (h : Sim s t) {path : String} {value : Option Value}
    (hop : Decodes (opJson (.set path value)) op) (hvalue : OpTame (.set path value))
    (hm : Mirrored s.usingMissingDefault s.current (.set path value)) :
    ∃ t', Script.applySet i op t = some t' ∧ Sim (applySet i path value s) t' := by
  have hpath := decodes_string.mp (index_some hop (k := "path") (j := .string path) rfl)
  have hval := index_some hop (k := "value") (j := value.getD .null) rfl
  have hnil : (op.index (.string "value")).isNil = false := by
    cases hv : op.index (.string "value") with
    | nil => exact absurd hv hval.ne_nil
    | _ => rfl
  unfold Script.applySet applySet
  simp only [hpath, getPath, fieldPathSegments_string, hnil, Bool.not_false, Bool.and_true]
  rcases rejected_or_accepted (validateOpPath_agree "set" i (fieldPathSegments path)) with
    ⟨e, e', he, he', hcode⟩ | ⟨he, he'⟩
  · simp only [he, he']
    exact ⟨_, rfl, h.push (by simp [hcode])⟩
  · have hm := hm ((accepted_iff i).mpr he')
    simp only [he, he']
    by_cases hroot : path = ""
    · rw [if_pos (by simp [isRoot, hroot]), if_pos hroot]
      exact ⟨_, rfl, h.write hval (.inr hvalue)⟩
    · rw [if_neg (by simp [isRoot, hroot]), if_neg hroot]
      have harr := hm.resolve_left hroot
      by_cases hobj : ∃ members, s.current = .object members
      · obtain ⟨members, hcur⟩ := hobj
        obtain ⟨fields, hfields, hrel, htame⟩ := h.object hcur
        rw [if_pos ((isTable_agree h.current).mpr (.inl ⟨members, hcur⟩)), hcur, hfields]
        refine ⟨_, rfl, h.write ?_ (.inr (tame_insert hrel.left htame path hvalue))⟩
        simp only [Bool.false_eq_true, if_false]
        rw [setIndex_table hval.ne_nil, decodes_object]
        exact ⟨_, rfl, hrel.insert path hval⟩
      · have hobj : ∀ members, s.current ≠ .object members := fun members hc => hobj ⟨members, hc⟩
        rw [if_neg (by simp [h.not_isTable hobj harr])]
        refine ⟨_, rfl, ?_⟩
        split
        · rename_i members hc
          exact absurd hc (hobj members)
        · exact h.push rfl

theorem applyRemove_agree (h : Sim s t) {path : String} (hop : Decodes (opJson (.remove path)) op)
    (hm : Mirrored s.usingMissingDefault s.current (.remove path)) :
    ∃ t', Script.applyRemove i op t = some t' ∧ Sim (applyRemove i path s) t' := by
  have hpath := decodes_string.mp (index_some hop (k := "path") (j := .string path) rfl)
  unfold Script.applyRemove applyRemove
  simp only [hpath, getPath, fieldPathSegments_string]
  rcases rejected_or_accepted (validateOpPath_agree "remove" i (fieldPathSegments path)) with
    ⟨e, e', he, he', hcode⟩ | ⟨he, he'⟩
  · simp only [he, he']
    exact ⟨_, rfl, h.push (by simp [hcode])⟩
  · have hm := hm ((accepted_iff i).mpr he')
    simp only [he, he']
    by_cases hroot : path = ""
    · rw [if_pos (by simp [isRoot, hroot]), if_pos hroot]
      exact ⟨_, rfl, h.write (by rw [Decodes]) (.inr trivial)⟩
    · rw [if_neg (by simp [isRoot, hroot]), if_neg hroot]
      have harr := hm.resolve_left hroot
      by_cases hobj : ∃ members, s.current = .object members
      · obtain ⟨members, hcur⟩ := hobj
        obtain ⟨fields, hfields, hrel, htame⟩ := h.object hcur
        rw [if_pos ((isTable_agree h.current).mpr (.inl ⟨members, hcur⟩)), hcur, hfields]
        refine ⟨_, rfl, h.write (decodes_object.mpr ⟨_, rfl, hrel.erase path⟩) ?_⟩
        by_cases hempty : Assoc.erase members path = []
        · exact .inl (by rw [hempty])
        · exact .inr (tame_object.mpr ⟨hempty, Assoc.distinct_erase hrel.left path,
            fun m hm => htame m (List.mem_of_mem_filter hm)⟩)
      · have hobj : ∀ members, s.current ≠ .object members := fun members hc => hobj ⟨members, hc⟩
        rw [if_neg (by simp [h.not_isTable hobj harr])]
        refine ⟨_, rfl, ?_⟩
        split
        · rename_i members hc
          exact absurd hc (hobj members)
        · exact h.push rfl

theorem tame_insertAll {members new : Members} (hd : Assoc.Distinct members) (h : TameAll members)
    (hnew : Tame (.object new)) : Tame (.object (Assoc.insertAll members new)) := by
  obtain ⟨hne, -, hall⟩ := tame_object.mp hnew
  rw [tame_object]
  refine ⟨Assoc.insertAll_ne_nil hne, Assoc.distinct_insertAll hd new, fun m hm => ?_⟩
  rcases Assoc.mem_insertAll hm with hm | hm
  · exact h m hm
  · exact hall m hm

theorem assignAll_sim {new : Members} {v : LuaValue} (hnew : Tame (.object new))
    (hv : Decodes (.object new) v) (members : Members) :
    TargetSim (fun _ _ => True) (fun target => (Assoc.insertAll target new, ()))
      (fun target => (assignAll target v, ())) members := by
  intro fields hrel htame
  obtain ⟨newFields, rfl, hrelNew⟩ := decodes_object.mp hv
  exact ⟨decodes_object.mpr ⟨_, rfl, hrel.insertAll hrelNew⟩, tame_insertAll hrel.left htame hnew, trivial⟩

theorem applyMerge_agree (h : Sim s t) {path : Option MergePath} {value : Value}
    (hop : Decodes (opJson (.merge path value)) op) (hvalue : OpTame (.merge path value))
    (hm : Mirrored s.usingMissingDefault s.current (.merge path value)) :
    ∃ t', Script.applyMerge i op t = some t' ∧ Sim (applyMerge i path value s) t' := by
  obtain ⟨hvt, hkeys⟩ := hvalue
  have hsegments := mergePathSegments_agree hop
  have hval := value_agree hop
  unfold Script.applyMerge applyMerge
  simp only [hsegments]
  rcases rejected_or_accepted (validateOpPath_agree "merge" i (mergePathSegments path)) with
    ⟨e, e', he, he', hcode⟩ | ⟨he, he'⟩
  · simp only [he, he']
    exact ⟨_, rfl, h.push (by simp [hcode])⟩
  have hm := hm ((accepted_iff i).mpr he')
  simp only [he, he']
  rcases rejected_or_accepted (validateMergeValue_agree i hval hvt hkeys) with
    ⟨e, e', he, he', hcode⟩ | ⟨he, he'⟩
  · simp only [he, he']
    exact ⟨_, rfl, h.push (by simp [hcode])⟩
  have harr := hm ((validateMergeValue_none i value).mpr he')
  simp only [he, he']
  cases value with
  | object new =>
    simp only [List.isEmpty_map]
    by_cases hobj : ∃ members, s.current = .object members
    · obtain ⟨members, hcur⟩ := hobj
      obtain ⟨fields, hfields, hrel, htame⟩ := h.object hcur
      have htable := (isTable_agree h.current).mpr (.inl ⟨members, hcur⟩)
      simp only [htable, if_true, hcur]
      by_cases hempty : (mergePathSegments path).isEmpty = true
      · rw [if_pos hempty, if_pos hempty, hfields]
        obtain ⟨hdec, hout, -⟩ := assignAll_sim hvt hval members fields hrel htame
        exact ⟨_, rfl, h.write hdec (.inr hout)⟩
      · rw [if_neg hempty, if_neg hempty, hfields]
        obtain ⟨j, a, hwalk, -, hout, hdec, -⟩ := walkNode_agree (mergePathSegments path) members fields
          hrel htame (assignAll_sim hvt hval _)
        simp only [walkOrCreate, asObject, hwalk, Script.walkOrCreate, isObjectShape, if_true]
        exact ⟨_, rfl, h.write hdec (.inr hout)⟩
    · have hobj : ∀ members, s.current ≠ .object members := fun members hc => hobj ⟨members, hc⟩
      have hfresh : asObject s.current = .object [] := by
        cases hc : s.current with
        | object members => exact absurd hc (hobj members)
        | _ => rfl
      simp only [h.not_isTable hobj harr, Bool.false_eq_true, if_false]
      by_cases hempty : (mergePathSegments path).isEmpty = true
      · rw [if_pos hempty, if_pos hempty]
        exact ⟨_, rfl, h⟩
      · rw [if_neg hempty, if_neg hempty]
        obtain ⟨j, a, hwalk, -, hout, hdec, -⟩ := walkNode_agree (mergePathSegments path) [] []
          Related.nil (fun m hm => by cases hm) (assignAll_sim hvt hval _)
        simp only [walkOrCreate, hfresh, hwalk, Script.walkOrCreate, isObjectShape, if_true]
        exact ⟨_, rfl, h.write hdec (.inr hout)⟩
  | _ => simp [validateMergeValue] at he'

/-- What `Mirrored` says of either count. -/
def NumericMirrored (name path : String) (missing : Bool) (current : Value) : Prop :=
  Accepted name (fieldPathSegments path) → if path = "" then missing = false else ¬ IsArray current

theorem notNumber_agree {r : Numeric} {l : Script.Numeric} (hname : r.name = l.name) (path path' : String)
    (target : Value) (target' : LuaValue) :
    codes [r.notNumber i path target] = codes [l.notNumber i (.string path') target'] := by
  simp [Numeric.notNumber, Script.Numeric.notNumber, hname]

/-- A table value that is neither missing nor a number is reported by the script. -/
theorem applyNumeric_agree {r : Numeric} {l : Script.Numeric} (hsim : NumericSim r l) (h : Sim s t)
    {path : String} {by_ : I64}
    (hop : Decodes (.object [("type", .string r.name), ("path", .string path), ("by", .number (.ofI64 by_))]) op)
    (hby : (Number.ofI64 by_).Safe)
    (hm : NumericMirrored r.name path s.usingMissingDefault s.current)
    (hsafe : Safe (applyNumeric r i path by_ s).current) :
    ∃ t', Script.applyNumeric l i op t = some t' ∧ Sim (applyNumeric r i path by_ s) t' := by
  have hpath := decodes_string.mp (index_some hop (k := "path") (j := .string path) rfl)
  obtain ⟨y, hy, hyval⟩ : Decodes (.number (.ofI64 by_)) (op.index (.string "by")) :=
    index_some hop (k := "by") rfl
  unfold applyNumeric at hsafe
  unfold Script.applyNumeric applyNumeric
  simp only [hpath, hy, getPath, fieldPathSegments_string, ← hsim.name]
  rcases rejected_or_accepted (validateOpPath_agree r.name i (fieldPathSegments path)) with
    ⟨e, e', he, he', hcode⟩ | ⟨he, he'⟩
  · simp only [he, he']
    exact ⟨_, rfl, h.push (by simp [hcode])⟩
  have hm := hm ((accepted_iff i).mpr he')
  simp only [he'] at hsafe
  simp only [he, he']
  by_cases hroot : path = ""
  · rw [if_pos hroot] at hm hsafe
    rw [if_pos (by simp [isRoot, hroot]), if_pos hroot]
    simp only [hm, h.flag, Bool.false_eq_true, if_false] at hsafe ⊢
    by_cases hnum : ∃ n, s.current = .number n
    · obtain ⟨n, hcur⟩ := hnum
      have hdec := h.current
      have hn : n.Safe := by
        rcases h.root with hroot | hroot
        · rw [hcur] at hroot
          cases hroot
        · rw [hcur] at hroot
          exact hroot
      rw [hcur] at hdec
      obtain ⟨f, hf, hfval⟩ := hdec
      obtain ⟨n', hupdate, hlua⟩ := hsim.number hn hby hfval hyval
      simp only [hcur, hupdate] at hsafe
      obtain ⟨f', hf', hfval'⟩ := hlua hsafe
      simp only [hcur, hupdate, hf, hf']
      exact ⟨_, rfl, h.write ⟨f', rfl, hfval'⟩ (.inr hsafe)⟩
    · have hnum : ∀ n, s.current ≠ .number n := fun n hc => hnum ⟨n, hc⟩
      have hluanum : ∀ x, t.current ≠ .number x := by
        intro x hx
        have hdec := h.current
        rw [hx] at hdec
        cases hc : s.current with
        | number n => exact hnum n hc
        | array items => simp [hc, decodes_array] at hdec
        | object members => simp [hc, decodes_object] at hdec
        | _ => simp [hc, Decodes] at hdec
      simp only [hsim.other by_ hnum]
      cases hc : t.current with
      | number x => exact absurd hc (hluanum x)
      | _ => exact ⟨_, rfl, h.push (notNumber_agree hsim.name ..)⟩
  · rw [if_neg hroot] at hm hsafe
    rw [if_neg (by simp [isRoot, hroot]), if_neg hroot]
    by_cases hobj : ∃ members, s.current = .object members
    · obtain ⟨members, hcur⟩ := hobj
      obtain ⟨fields, hfields, hrel, htame⟩ := h.object hcur
      rw [if_pos ((isTable_agree h.current).mpr (.inl ⟨members, hcur⟩))]
      simp only [hcur] at hsafe
      simp only [hcur, hfields]
      have hset : ∀ {n' : Number} {f' : F64}, n'.Safe → f'.value = n'.asF64 →
          Sim (s.write (.object (Assoc.insert members path (.number n'))))
            (t.write ((LuaValue.table [] fields).setIndex (.string path) (.number (some f')))) := by
        intro n' f' hn' hf'
        have hdec : Decodes (.number n') (.number (some f')) := ⟨f', rfl, hf'⟩
        refine h.write ?_ (.inr (tame_insert hrel.left htame path hn'))
        rw [setIndex_table hdec.ne_nil, decodes_object]
        exact ⟨_, rfl, hrel.insert path hdec⟩
      obtain ⟨hj, hw⟩ | ⟨j, w, hj, hw, hdec⟩ := hrel.lookup path
      · have hindex : (LuaValue.table [] fields).index (.string path) = .nil := by simp [LuaValue.index, hw]
        obtain ⟨n', hmissing, hn', f', hf', hfval'⟩ := hsim.missing hby hyval
        simp only [hj, hindex, hmissing, hf']
        exact ⟨_, rfl, hset hn' hfval'⟩
      · have hindex : (LuaValue.table [] fields).index (.string path) = w := by simp [LuaValue.index, hw]
        have hjt := htame _ (Assoc.mem_of_get? hj)
        simp only [hj] at hsafe
        simp only [hj, hindex]
        by_cases hnum : ∃ n, j = .number n
        · obtain ⟨n, rfl⟩ := hnum
          obtain ⟨f, rfl, hfval⟩ := hdec
          obtain ⟨n', hupdate, hlua⟩ := hsim.number hjt hby hfval hyval
          simp only [hupdate] at hsafe
          have hn' : n'.Safe := Safe.get? (k := path) hsafe (by simp [Assoc.get?_insert])
          obtain ⟨f', hf', hfval'⟩ := hlua hn'
          simp only [hupdate, hf']
          exact ⟨_, rfl, hset hn' hfval'⟩
        · have hnum : ∀ n, j ≠ .number n := fun n hc => hnum ⟨n, hc⟩
          simp only [hsim.other by_ hnum]
          cases hc : w with
          | nil => exact absurd hc hdec.ne_nil
          | number x =>
            rw [hc] at hdec
            cases j with
            | number n => exact absurd rfl (hnum n)
            | array items => simp [decodes_array] at hdec
            | object members => simp [decodes_object] at hdec
            | _ => simp [Decodes] at hdec
          | _ => exact ⟨_, rfl, h.push (notNumber_agree hsim.name ..)⟩
    · have hobj : ∀ members, s.current ≠ .object members := fun members hc => hobj ⟨members, hc⟩
      rw [if_neg (by simp [h.not_isTable hobj hm])]
      refine ⟨_, rfl, ?_⟩
      split
      · rename_i members hc
        exact absurd hc (hobj members)
      · exact h.push rfl

theorem applyAppend_agree (h : Sim s t) {path : Option MergePath} {value : Value}
    (hop : Decodes (opJson (.append path value)) op) (hvalue : OpTame (.append path value))
    (hm : Mirrored s.usingMissingDefault s.current (.append path value)) :
    ∃ t', Script.applyAppend i op t = some t' ∧ Sim (applyAppend i path value s) t' := by
  have hsegments := mergePathSegments_agree hop
  have hval := value_agree hop
  have hvt : Tame value := hvalue
  unfold Mirrored at hm
  unfold Script.applyAppend applyAppend
  simp only [hsegments]
  rcases rejected_or_accepted (validateOpPath_agree "append" i (mergePathSegments path)) with
    ⟨e, e', he, he', hcode⟩ | ⟨he, he'⟩
  · simp only [he, he']
    exact ⟨_, rfl, h.push (by simp [hcode])⟩
  have hm := hm ((accepted_iff i).mpr he')
  simp only [he, he']
  cases hsegs : mergePathSegments path with
  | nil =>
    simp only [hsegs] at hm
    simp only [List.map_nil, h.flag, Bool.false_eq_true, if_false]
    by_cases hmissing : s.usingMissingDefault = true
    · -- the engine reads a missing field, the script an empty array: one list either way
      simp only [hmissing, if_true] at hm ⊢
      have hdec := h.current
      rw [h.missing hmissing] at hdec
      obtain ⟨fields, hfields, hrel⟩ := decodes_object.mp hdec
      have hnil : fields = [] := List.eq_nil_of_length_eq_zero hrel.length.symm
      subst hnil
      simp only [hfields, appendToTarget, Script.appendToTarget, isArray, List.isEmpty_nil, if_true]
      refine ⟨_, rfl, h.write ?_ (.inr (tame_initialAppendValue hvt))⟩
      rw [initialAppendValue_of_not hm]
      exact decodes_array.mpr ⟨_, rfl, .cons hval .nil⟩
    · simp only [hmissing, Bool.false_eq_true, if_false] at hm ⊢
      have happend := appendToTarget_agree h.current (h.root.resolve_left hm) hval hvt "root" i
      cases hr : appendToTarget s.current value "root" i with
      | ok a =>
        rw [hr] at happend
        cases hl : Script.appendToTarget t.current (op.index (.string "value")) "root" i with
        | ok b =>
          rw [hl] at happend
          cases happend with
          | ok hab ha => exact ⟨_, rfl, h.write hab (.inr ha)⟩
        | error e =>
          rw [hl] at happend
          cases happend
      | error e =>
        rw [hr] at happend
        cases hl : Script.appendToTarget t.current (op.index (.string "value")) "root" i with
        | ok b =>
          rw [hl] at happend
          cases happend
        | error e' =>
          rw [hl] at happend
          cases happend with
          | error hcode => exact ⟨_, rfl, h.push (by simp [hcode])⟩
  | cons seg rest =>
    rw [List.map_cons]
    by_cases hobj : ∃ members, s.current = .object members
    · obtain ⟨members, hcur⟩ := hobj
      obtain ⟨fields, hfields, hrel, htame⟩ := h.object hcur
      simp only [hcur, hfields, isObjectShape, if_true, List.isEmpty_map]
      by_cases hrest : rest.isEmpty = true
      · rw [if_pos hrest, if_pos hrest]
        obtain ⟨hdec, hout, hcodes⟩ := appendLeaf_agree seg members (i := i) hval hvt
          (initialAppendValue_agree hval) (tame_initialAppendValue hvt) (fun _ => rfl) fields hrel htame
        exact ⟨_, rfl, (h.push hcodes).write hdec (.inr hout)⟩
      · rw [if_neg hrest, if_neg hrest]
        have hlast : (LuaValue.string seg :: rest.map .string).getLast (by simp) =
            .string ((seg :: rest).getLast (by simp)) := by
          simp [← List.map_cons, List.getLast_map]
        have hinit : (LuaValue.string seg :: rest.map .string).dropLast =
            (seg :: rest).dropLast.map .string := by
          rw [← List.map_cons, List.map_dropLast]
        have hleaf := appendLeaf_agree ((seg :: rest).getLast (by simp))
          (reach members (seg :: rest).dropLast) (i := i) hval hvt (singleton_agree hval)
          (tame_singleton hvt) (by
            intro hnull
            apply initialAppendValue_of_not
            rw [hsegs, hcur] at hm
            cases rest with
            | nil => exact absurd rfl hrest
            | cons seg' rest' =>
              apply hm
              simp only [NullLeaf, List.getLast?_eq_getLast_of_ne_nil (List.cons_ne_nil seg (seg' :: rest'))]
              exact hnull)
        obtain ⟨j, a, hwalk, -, hout, hdec, hcodes⟩ := walkNode_agree (seg :: rest).dropLast members fields
          hrel htame hleaf
        simp only [walkOrCreate, asObject, hwalk, Script.walkOrCreate, isObjectShape, if_true, hlast, hinit]
        exact ⟨_, rfl, (h.push hcodes).write hdec (.inr hout)⟩
    · have hobj : ∀ members, s.current ≠ .object members := fun members hc => hobj ⟨members, hc⟩
      have hshape : ¬ isObjectShape t.current = true := fun hs => by
        obtain ⟨members, hc⟩ := (isObjectShape_agree h.current h.ne_nil).mp hs
        exact hobj members hc
      simp only [hshape]
      exact ⟨_, rfl, h.push rfl⟩

end Sim

end Iii.Update
