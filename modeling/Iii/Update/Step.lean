import Iii.Update.Agree

/-! One operation, on related states.

`Mirrored` names the branches on which the engine and the script do the same; each
operation is simulated as long as it takes one of them. -/
namespace Iii.Update
open Lib Filter Script

/-! ### Merge values -/

theorem checkKeys_agree (i : Nat) (fields : List (String × LuaValue)) :
    ∀ keyCount, keyCount + fields.length ≤ maxValueKeys →
      (checkKeys i keyCount fields).map codeOf =
        if fields.any (fun m => protoPollutionKeys.contains m.1)
          then some (i, "merge.value.proto_polluted") else none := by
  induction fields with
  | nil => exact fun _ _ => rfl
  | cons m rest ih =>
    intro keyCount h
    rw [List.length_cons] at h
    rw [checkKeys, List.any_cons]
    by_cases hm : protoPollutionKeys.contains m.1 = true
    · rw [if_pos hm, hm, Bool.true_or, if_pos rfl]
      rfl
    · rw [if_neg hm, if_neg (by omega), ih _ (by omega), Bool.eq_false_of_not_eq_true hm, Bool.false_or]

theorem any_keys {members : Members} {fields : List (String × LuaValue)} (h : Related members fields)
    (p : String → Bool) : members.any (fun m => p m.1) = fields.any (fun m => p m.1) := by
  have hmap : ∀ {α : Type} (l : List (String × α)), l.any (fun m => p m.1) = (l.map (·.1)).any p :=
    fun l => List.any_map.symm
  rw [hmap, hmap, Bool.eq_iff_iff, List.any_eq_true, List.any_eq_true]
  exact exists_congr fun key => and_congr_left fun _ => h.mem_keys key

variable {value : Value} {v : LuaValue}

/-- A merge value of at most 1024 keys is rejected by both sides or by neither, with one code. -/
theorem validateMergeValue_agree (i : Nat) (h : Decodes value v) (hvalue : Tame value)
    (hkeys : ∀ members, value = .object members → members.length ≤ maxValueKeys) :
    (Script.validateMergeValue i v).map codeOf = (validateMergeValue i value).map codeOf := by
  cases value with
  | object members =>
    have hdepth := jsonDepth_of_decodes _ _ h
    obtain ⟨fields, rfl, hrel⟩ := decodes_object.mp h
    have hlen := hkeys members rfl
    have hcheck := checkKeys_agree i fields 0 (by rw [← hrel.length]; omega)
    have hproto := any_keys hrel fun key => protoPollutionKeys.contains key
    rw [← hproto] at hcheck
    unfold validateMergeValue Script.validateMergeValue
    simp only
    rw [hdepth, if_neg (show ¬ maxValueKeys < members.length by omega)]
    cases hfind : members.find? (fun m => protoPollutionKeys.contains m.1) with
    | some m =>
      have hany : members.any (fun m => protoPollutionKeys.contains m.1) = true := by
        rw [List.any_eq_true]
        exact ⟨m, List.mem_of_find?_eq_some hfind,
          List.find?_some (p := fun m : String × Value => protoPollutionKeys.contains m.1) hfind⟩
      rw [if_pos hany] at hcheck
      obtain ⟨e, he, hcode⟩ := Option.map_eq_some_iff.mp hcheck
      simp [he, hcode]
    | none =>
      have hany : ¬ members.any (fun m => protoPollutionKeys.contains m.1) = true := by
        rw [List.any_eq_true]
        rintro ⟨m, hm, hp⟩
        exact List.find?_eq_none.mp hfind m hm hp
      rw [if_neg hany, Option.map_eq_none_iff] at hcheck
      simp only [hcheck]
      split <;> rfl
  | array items =>
    obtain ⟨vals, rfl, hall⟩ := decodes_array.mp h
    cases hall with
    | nil => exact absurd rfl (tame_array.mp hvalue).1
    | cons _ _ => rfl
  | number n =>
    obtain ⟨f, rfl, -⟩ := h
    rfl
  | _ =>
    rw [Decodes] at h
    subst h
    rfl

/-! ### Appending -/

theorem singleton_agree (h : Decodes value v) :
    Decodes (.array [value]) v.singleton := by
  have hsingle : v.singleton = .table [v] [] := by
    cases v with
    | nil => exact absurd rfl h.ne_nil
    | _ => rfl
  rw [hsingle, decodes_array]
  exact ⟨[v], rfl, .cons h .nil⟩

theorem tame_singleton (h : Tame value) : Tame (.array [value]) := by
  rw [tame_array]
  exact ⟨by simp, by simpa using h⟩

def IsString : Value → Prop
  | .string _ => True
  | _ => False

instance : DecidablePred IsString := fun
  | .string _ => .isTrue trivial
  | .null | .bool _ | .number _ | .array _ | .object _ => .isFalse id

theorem initialAppendValue_of_not (h : ¬ IsString value) :
    initialAppendValue value = .array [value] := by
  cases value with
  | string s => exact absurd trivial h
  | _ => rfl

theorem initialAppendValue_agree (h : Decodes value v) :
    Decodes (initialAppendValue value) (Script.initialAppendValue v) := by
  cases value with
  | string s =>
    rw [decodes_string.mp h]
    exact decodes_string.mpr rfl
  | array items =>
    obtain ⟨vals, rfl, -⟩ := decodes_array.mp h
    exact singleton_agree h
  | object members =>
    obtain ⟨fields, rfl, -⟩ := decodes_object.mp h
    exact singleton_agree h
  | number n =>
    obtain ⟨f, rfl, -⟩ := id h
    exact singleton_agree h
  | _ =>
    have hv := h
    rw [Decodes] at hv
    subst hv
    exact singleton_agree h

theorem tame_initialAppendValue (h : Tame value) : Tame (initialAppendValue value) := by
  by_cases hs : IsString value
  · cases value with
    | string s => trivial
    | _ => exact absurd hs id
  · rw [initialAppendValue_of_not hs]
    exact tame_singleton h

/-- An append succeeds on both sides or fails on both with one code. -/
inductive AppendSim : Except UpdateOpError Value → Except UpdateOpError LuaValue → Prop
  | ok {a : Value} {b : LuaValue} (h : Decodes a b) (ha : Tame a) : AppendSim (.ok a) (.ok b)
  | error {e e' : UpdateOpError} (h : codeOf e = codeOf e') : AppendSim (.error e) (.error e')

/-- Two errors with one code: only the code is compared. -/
theorem AppendSim.sameCode (i : Nat) (code message message' : String) :
    AppendSim (.error (err i code message)) (.error (err i code message')) :=
  .error ((codeOf_err i code message).trans (codeOf_err i code message').symm)

theorem appendToTarget_agree {target : Value} {t : LuaValue} (ht : Decodes target t) (htarget : Tame target)
    (hv : Decodes value v) (hvalue : Tame value) (path : String) (i : Nat) :
    AppendSim (appendToTarget target value path i) (Script.appendToTarget t v path i) := by
  cases target with
  | null =>
    rw [Decodes] at ht
    subst ht
    exact .ok (initialAppendValue_agree hv) (tame_initialAppendValue hvalue)
  | string existing =>
    rw [decodes_string.mp ht]
    cases value with
    | string chunk =>
      rw [decodes_string.mp hv]
      exact .ok (decodes_string.mpr rfl) trivial
    | array items =>
      obtain ⟨vals, rfl, -⟩ := decodes_array.mp hv
      exact .sameCode _ _ _ _
    | object members =>
      obtain ⟨fields, rfl, -⟩ := decodes_object.mp hv
      exact .sameCode _ _ _ _
    | number n =>
      obtain ⟨f, rfl, -⟩ := hv
      exact .sameCode _ _ _ _
    | _ =>
      rw [Decodes] at hv
      subst hv
      exact .sameCode _ _ _ _
  | array items =>
    obtain ⟨vals, rfl, hall⟩ := decodes_array.mp ht
    refine .ok (decodes_array.mpr ⟨vals ++ [v], rfl, List.rel_append hall (.cons hv .nil)⟩) ?_
    rw [tame_array]
    refine ⟨by simp, fun j hj => ?_⟩
    rcases List.mem_append.mp hj with hj | hj
    · exact (tame_array.mp htarget).2 j hj
    · rw [List.mem_singleton.mp hj]
      exact hvalue
  | object members =>
    obtain ⟨fields, rfl, hrel⟩ := decodes_object.mp ht
    cases fields with
    | nil => exact absurd (List.eq_nil_of_length_eq_zero hrel.length) (tame_object.mp htarget).1
    | cons m rest => exact .sameCode _ _ _ _
  | number n =>
    obtain ⟨f, rfl, -⟩ := ht
    exact .error rfl
  | bool b =>
    rw [Decodes] at ht
    subst ht
    exact .error rfl

theorem appendLeaf_existing {parent leafKey value missing existing : LuaValue} {i : Nat}
    (h : parent.index leafKey = existing) (hnil : existing ≠ .nil) (hnull : existing ≠ .null) :
    Script.appendLeaf leafKey value missing i parent =
      match Script.appendToTarget existing value (label leafKey) i with
      | .ok v => (parent.setIndex leafKey v, [])
      | .error e => (parent, [e]) := by
  unfold Script.appendLeaf
  rw [h]
  cases existing with
  | nil => exact absurd rfl hnil
  | null => exact absurd rfl hnull
  | _ => rfl

/-- The leaf of an append, where the value for a missing leaf also serves a `null` one. -/
theorem appendLeaf_agree (leafKey : String) (members : Members) {missing : Value} {missing' : LuaValue}
    {i : Nat} (hv : Decodes value v) (hvalue : Tame value) (hm : Decodes missing missing')
    (hmissing : Tame missing)
    (hnull : Assoc.get? members leafKey = some .null → initialAppendValue value = missing) :
    TargetSim (fun a b => codes a = codes b) (appendLeaf leafKey value missing i)
      (Script.appendLeaf (.string leafKey) v missing' i) members := by
  intro fields hrel htame
  have hset : ∀ {j : Value} {w : LuaValue}, Decodes j w → Tame j →
      Decodes (.object (Assoc.insert members leafKey j))
        ((LuaValue.table [] fields).setIndex (.string leafKey) w) ∧
      Tame (.object (Assoc.insert members leafKey j)) := by
    intro j w hj hjt
    rw [setIndex_table hj.ne_nil, decodes_object]
    exact ⟨⟨_, rfl, hrel.insert leafKey hj⟩, tame_insert hrel.left htame leafKey hjt⟩
  obtain ⟨hj, hw⟩ | ⟨j, w, hj, hw, hdec⟩ := hrel.lookup leafKey
  · have hindex : (LuaValue.table [] fields).index (.string leafKey) = .nil := by simp [LuaValue.index, hw]
    unfold appendLeaf Script.appendLeaf
    rw [hj, hindex]
    obtain ⟨hdec, htm⟩ := hset hm hmissing
    exact ⟨hdec, htm, rfl⟩
  · have hindex : (LuaValue.table [] fields).index (.string leafKey) = w := by simp [LuaValue.index, hw]
    have hjt := htame _ (Assoc.mem_of_get? hj)
    by_cases hjnull : j = .null
    · subst hjnull
      have hinit := hnull hj
      rw [Decodes] at hdec
      subst hdec
      unfold appendLeaf Script.appendLeaf
      rw [hj, hindex]
      simp only [appendToTarget]
      rw [hinit]
      obtain ⟨hdec, htm⟩ := hset hm hmissing
      exact ⟨hdec, htm, trivial⟩
    · have hwnull : w ≠ .null := by
        rintro rfl
        cases j with
        | null => exact hjnull rfl
        | array items => simp [decodes_array] at hdec
        | object members => simp [decodes_object] at hdec
        | _ => simp [Decodes] at hdec
      rw [appendLeaf_existing hindex hdec.ne_nil hwnull]
      unfold appendLeaf
      rw [hj]
      have happend := appendToTarget_agree hdec hjt hv hvalue leafKey i
      simp only [label]
      cases h : appendToTarget j value leafKey i with
      | ok a =>
        rw [h] at happend
        cases hlua : Script.appendToTarget w v leafKey i with
        | ok b =>
          rw [hlua] at happend
          cases happend with
          | ok hab ha =>
            obtain ⟨hdec, htm⟩ := hset hab ha
            exact ⟨hdec, htm, rfl⟩
        | error e =>
          rw [hlua] at happend
          cases happend
      | error e =>
        rw [h] at happend
        cases hlua : Script.appendToTarget w v leafKey i with
        | ok b =>
          rw [hlua] at happend
          cases happend
        | error e' =>
          rw [hlua] at happend
          cases happend with
          | error hcode =>
            refine ⟨decodes_object.mpr ⟨fields, rfl, hrel⟩, ?_, by simp [hcode]⟩
            rw [tame_object]
            exact ⟨List.ne_nil_of_mem (Assoc.mem_of_get? hj), hrel.left, htame⟩

/-! ### Counting -/

/-- The engine's and the script's count, related on safe integers. -/
structure NumericSim (r : Numeric) (l : Script.Numeric) : Prop where
  name : r.name = l.name
  number : ∀ {n : Number} {by_ : I64} {f y : F64}, n.Safe → (Number.ofI64 by_).Safe →
    f.value = n.asF64 → y.value = (Number.ofI64 by_).asF64 →
    ∃ n', r.update (.number n) by_ = some (.number n') ∧ (n'.Safe →
      ∃ f', l.update (.number (some f)) (.number (some y)) = some (.number (some f')) ∧ f'.value = n'.asF64)
  other : ∀ {j : Value} (by_ : I64), (∀ n, j ≠ .number n) → r.update j by_ = none
  missing : ∀ {by_ : I64} {y : F64}, (Number.ofI64 by_).Safe → y.value = (Number.ofI64 by_).asF64 →
    ∃ n', r.missing by_ = .number n' ∧ n'.Safe ∧
      ∃ f', l.missing (.number (some y)) = some (.number (some f')) ∧ f'.value = n'.asF64

/-- Within ±2^54 nothing overflows. -/
theorem I64.of_small {i : Int} (h : i.natAbs ≤ 2 ^ 54) : ∃ j : I64, I64.of i = some j ∧ j.1 = i := by
  have hfit : -2 ^ 63 ≤ i ∧ i < 2 ^ 63 := by omega
  exact ⟨⟨i, hfit⟩, dif_pos hfit, rfl⟩

theorem increment_sim : NumericSim .increment .increment where
  name := rfl
  number := by
    intro n by_ f y hn hby hf hy
    obtain ⟨i, hi, hval⟩ := hn.asI64
    have hbn := hn.natAbs_le
    have hbb := hby.natAbs_le
    rw [Number.toInt_ofI64] at hbb
    obtain ⟨sum, hsum, hsumval⟩ := I64.of_small (i := i.1 + by_.1) (by omega)
    refine ⟨.ofI64 sum, ?_, fun hsafe => ?_⟩
    · simp [Numeric.increment, incrementNumber, hi, I64.checkedAdd, hsum]
    · rw [hn.asF64] at hf
      rw [hby.asF64, Number.toInt_ofI64] at hy
      have hbound := hsafe.natAbs_le
      rw [Number.toInt_ofI64, hsumval, hval] at hbound
      obtain ⟨f', hadd, hvalue⟩ := F64.add_safe hf hy hbound
      refine ⟨f', by simp [Script.Numeric.increment, LuaValue.add, hadd], ?_⟩
      rw [hvalue, hsafe.asF64, Number.toInt_ofI64, hsumval, hval]
  other := by
    intro j by_ hj
    cases j with
    | number n => exact absurd rfl (hj n)
    | _ => rfl
  missing := by
    intro by_ y hby hy
    exact ⟨_, rfl, hby, y, rfl, hy⟩

theorem decrement_sim : NumericSim .decrement .decrement where
  name := rfl
  number := by
    intro n by_ f y hn hby hf hy
    obtain ⟨i, hi, hval⟩ := hn.asI64
    have hbn := hn.natAbs_le
    have hbb := hby.natAbs_le
    rw [Number.toInt_ofI64] at hbb
    obtain ⟨diff, hdiff, hdiffval⟩ := I64.of_small (i := i.1 - by_.1) (by omega)
    refine ⟨.ofI64 diff, ?_, fun hsafe => ?_⟩
    · simp [Numeric.decrement, decrementNumber, hi, I64.checkedSub, hdiff]
    · rw [hn.asF64] at hf
      rw [hby.asF64, Number.toInt_ofI64] at hy
      have hbound := hsafe.natAbs_le
      rw [Number.toInt_ofI64, hdiffval, hval] at hbound
      obtain ⟨f', hsub, hvalue⟩ := F64.sub_safe hf hy hbound
      refine ⟨f', by simp [Script.Numeric.decrement, LuaValue.sub, hsub], ?_⟩
      rw [hvalue, hsafe.asF64, Number.toInt_ofI64, hdiffval, hval]
  other := by
    intro j by_ hj
    cases j with
    | number n => exact absurd rfl (hj n)
    | _ => rfl
  missing := by
    intro by_ y hby hy
    have hbb := hby.natAbs_le
    rw [Number.toInt_ofI64] at hbb
    obtain ⟨negated, hneg, hnegval⟩ := I64.of_small (i := -by_.1) (by omega)
    have hsafe : (Number.ofI64 negated).Safe := by
      rw [Number.safe_ofI64, hnegval]
      omega
    refine ⟨.ofI64 negated, ?_, hsafe, y.negate, rfl, ?_⟩
    · simp [Numeric.decrement, missingDecrementValue, I64.checkedNeg, hneg]
    · rw [F64.value_negate, hy, hby.asF64, hsafe.asF64, Number.toInt_ofI64, Number.toInt_ofI64, hnegval,
        Int.neg_mul]

end Iii.Update
