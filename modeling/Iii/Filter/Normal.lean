import Iii.Filter.Accept
import Mathlib.Algebra.Order.Group.Nat

/-! The normal form of a filter is a filter, and means the same.

A clause list goes through `kept` (sorted, repetitions dropped) and `wrap`. Dropping
is sound because two clauses are dropped into one only when their canonical operands
are the same text, hence the same value up to the order of keys (`canonical_inj`),
and no reading of a filter sees that order. Everything else is one induction per
property over the filter: meaning (`readFilter_normal`), validity
(`filterOk_normal`), nodes (`filterNodes_normal`), nesting (`depth_normal`) and
being a fixed point (`normal_normal`). -/
namespace Iii.Filter
open Lib

/-! ### The order of keys is not read -/

theorem sorted_perm (map : List (String × Value)) :
    ((map.map fun m => (m.1, sortKeys m.2)).insertionSort keyLe).Perm
      (map.map fun m => (m.1, sortKeys m.2)) :=
  List.perm_insertionSort _ _

theorem get?_sorted {map : List (String × Value)} (hu : (map.map (·.1)).Nodup) (key : String) :
    Json.get? ((map.map fun m => (m.1, sortKeys m.2)).insertionSort keyLe) key =
      (Json.get? map key).map sortKeys := by
  have hkeys : ((map.map fun m => (m.1, sortKeys m.2)).map (·.1)).Nodup := by
    rw [List.map_map]
    exact hu
  rw [← Json.get?_perm hkeys (sorted_perm map).symm]
  clear hkeys hu
  induction map with
  | nil => rfl
  | cons m rest ih =>
    rw [List.map_cons, Json.get?_cons, Json.get?_cons]
    split_ifs
    · rfl
    · exact ih

theorem jsonEqItems_sortKeys {y : List Value} (ih : ∀ j ∈ y, ∀ v, jsonEq v (sortKeys j) = jsonEq v j)
    (x : List Value) : jsonEqItems x (y.map sortKeys) = jsonEqItems x y := by
  induction y generalizing x with
  | nil => cases x <;> rfl
  | cons j rest ih' =>
    cases x with
    | nil => rfl
    | cons v x =>
      rw [List.map_cons, jsonEqItems, jsonEqItems, ih j (List.mem_cons_self ..),
        ih' (fun i hi => ih i (List.mem_cons_of_mem _ hi))]

theorem jsonEqMembers_congr {y y' : List (String × Value)} (x : List (String × Value))
    (h : ∀ key v, (match Json.get? y' key with | some w => jsonEq v w | none => false) =
      (match Json.get? y key with | some w => jsonEq v w | none => false)) :
    jsonEqMembers x y' = jsonEqMembers x y := by
  induction x with
  | nil => rfl
  | cons m rest ih =>
    rw [jsonEqMembers, jsonEqMembers, ih]
    exact congrArg (· && jsonEqMembers rest y) (h m.1 m.2)

theorem jsonEq_sortKeys (literal : Value) (hu : literal.Unique) (v : Value) :
    jsonEq v (sortKeys literal) = jsonEq v literal := by
  induction literal using Json.ind generalizing v with
  | array items ih =>
    rw [Json.unique_array] at hu
    rw [sortKeys_array]
    cases v with
    | array x =>
      rw [jsonEq, jsonEq, List.length_map, jsonEqItems_sortKeys fun j hj => ih j hj (hu j hj)]
    | _ => rfl
  | object members ih =>
    rw [Json.unique_object] at hu
    rw [sortKeys_object]
    cases v with
    | object x =>
      rw [jsonEq, jsonEq, List.length_insertionSort, List.length_map]
      refine congrArg _ (jsonEqMembers_congr x fun key w => ?_)
      rw [get?_sorted hu.1]
      cases hget : Json.get? members key with
      | none => rfl
      | some j => exact ih _ (Json.mem_of_get? hget) (hu.2 _ (Json.mem_of_get? hget)) w
    | _ => rfl
  | _ => rfl

theorem readLeaf_sortKeys (name : String) (operand : Value) (hu : operand.Unique)
    (value : Option Value) : readLeaf name (sortKeys operand) value = readLeaf name operand value := by
  have hitems : ∀ items, operand = .array items → ∀ v,
      (items.map sortKeys).any (jsonEq v) = items.any (jsonEq v) := by
    rintro items rfl v
    rw [Json.unique_array] at hu
    rw [List.any_map]
    exact any_congr_mem fun j hj => jsonEq_sortKeys j (hu j hj) v
  have heq : ∀ v, jsonEq v (sortKeys operand) = jsonEq v operand := jsonEq_sortKeys operand hu
  have hord : ordering value (sortKeys operand) = ordering value operand := by
    cases operand with
    | array items => rw [sortKeys_array]; rcases value with _ | v <;> [rfl; cases v <;> rfl]
    | object map => rw [sortKeys_object]; rcases value with _ | v <;> [rfl; cases v <;> rfl]
    | _ => rfl
  unfold readLeaf
  cases hn : opName name with
  | eq => simp only [heq]
  | ne => simp only [heq]
  | inSet =>
    cases operand with
    | array items => simp only [sortKeys_array, hitems items rfl]
    | object map => simp only [sortKeys_object]
    | _ => rfl
  | nin =>
    cases operand with
    | array items => simp only [sortKeys_array, hitems items rfl]
    | object map => simp only [sortKeys_object]
    | _ => rfl
  | gt => simp only [hord]
  | gte => simp only [hord]
  | lt => simp only [hord]
  | lte => simp only [hord]
  | _ =>
    cases operand with
    | array items => simp only [sortKeys_array]
    | object map => simp only [sortKeys_object]
    | _ => rfl

theorem isOperatorObject_sorted (map : List (String × Value)) :
    isOperatorObject ((map.map fun m => (m.1, sortKeys m.2)).insertionSort keyLe) =
      isOperatorObject map := by
  have hempty : ((map.map fun m => (m.1, sortKeys m.2)).insertionSort keyLe).isEmpty = map.isEmpty := by
    rw [Bool.eq_iff_iff, List.isEmpty_iff_length_eq_zero, List.isEmpty_iff_length_eq_zero,
      List.length_insertionSort, List.length_map]
  unfold isOperatorObject
  rw [hempty, (sorted_perm map).all_eq, List.all_map]
  rfl

/-- A filter with its keys sorted reads as the filter; so does an operator object. -/
theorem read_sortKeys :
    (∀ v : Value, v.Unique → ∀ doc element,
      readFilter doc element (sortKeys v) = readFilter doc element v) ∧
    ∀ map : List (String × Value), Json.Unique (.object map) → ∀ doc value,
      readOps doc value ((map.map fun m => (m.1, sortKeys m.2)).insertionSort keyLe) =
        readOps doc value map := by
  refine filter_induct (fun map ih => ⟨fun hu doc element => ?_, fun hu doc value => ?_⟩) fun v hv => ?_
  · rw [Json.unique_object] at hu
    rw [sortKeys_object, readFilter_object, readFilter_object, (sorted_perm map).all_eq, List.all_map]
    refine all_congr_mem fun m hm => ?_
    obtain ⟨key, value⟩ := m
    obtain ⟨hF, hO, hitems⟩ := ih _ hm
    have hvu := hu.2 _ hm
    show readClause doc element (key, sortKeys value) = readClause doc element (key, value)
    unfold readClause
    cases value with
    | array items =>
      have hi : ∀ i ∈ items, readFilter doc element (sortKeys i) = readFilter doc element i :=
        fun i hi => hitems items rfl i hi (Json.unique_array.mp hvu i hi) doc element
      cases hk : clauseKey key with
      | and =>
        simp only [sortKeys_array, List.all_map]
        exact all_congr_mem hi
      | or =>
        simp only [sortKeys_array, List.any_map]
        exact any_congr_mem hi
      | not => simp only [hF hvu doc element]
      | _ => simp only [sortKeys_array]
    | object ops =>
      cases hk : clauseKey key with
      | not => simp only [hF hvu doc element]
      | path =>
        simp only [sortKeys_object]
        exact hO ops rfl hvu doc _
      | _ => simp only [sortKeys_object]
    | _ => rfl
  · rw [Json.unique_object] at hu
    rw [readOps_eq, readOps_eq, (sorted_perm map).all_eq, List.all_map]
    refine all_congr_mem fun m hm => ?_
    obtain ⟨name, operand⟩ := m
    obtain ⟨hF, hO, -⟩ := ih _ hm
    have hvu := hu.2 _ hm
    show readOp doc value (name, sortKeys operand) = readOp doc value (name, operand)
    by_cases hn : opName name = .any
    · cases operand with
      | object ops =>
        have hany : ∀ item, readAny doc item ((ops.map fun m => (m.1, sortKeys m.2)).insertionSort keyLe)
            = readAny doc item ops := by
          intro item
          unfold readAny
          rw [isOperatorObject_sorted, hO ops rfl hvu, ← sortKeys_object, hF hvu]
        rw [sortKeys_object]
        exact readOp_any hn hany
      | array items => rw [sortKeys_array, readOp_any_other hn (by simp), readOp_any_other hn (by simp)]
      | _ => rfl
    · unfold readOp
      rw [if_neg hn, if_neg hn, readLeaf_sortKeys _ _ hvu]
  · intro _ doc element
    cases v with
    | object map => exact absurd rfl (hv map)
    | array items => rw [sortKeys_array]; rfl
    | _ => rfl

/-- A clause with its operand's keys sorted reads as the clause. -/
theorem readClause_sortKeys (doc : Doc) (element : Option Value) {c : String × Value}
    (hu : c.2.Unique) : readClause doc element (c.1, sortKeys c.2) = readClause doc element c := by
  have h := read_sortKeys.1 (.object [c]) (by simp [Json.unique_object, hu]) doc element
  rw [sortKeys_object, readFilter_object, readFilter_object, (sorted_perm [c]).all_eq] at h
  simpa using h

/-! ### Clauses kept -/

section Normal
variable (ft : FloatText)

instance : Std.Total (pairLe ft) := ⟨fun a b => le_total (pairOrder ft a) (pairOrder ft b)⟩
instance : IsTrans (String × Value) (pairLe ft) := ⟨fun _ _ _ h h' => le_trans h h'⟩

theorem pairSame_trans (a b c : String × Value) (hab : pairSame ft a b) (hbc : pairSame ft b c) :
    pairSame ft a c := ⟨hab.1.trans hbc.1, hab.2.trans hbc.2⟩

variable {ops clauses map : List (String × Value)} {v : Value} {inAny : Bool} {n : Nat}

theorem mem_of_mem_kept {c : String × Value} (h : c ∈ kept ft clauses) : c ∈ clauses :=
  (List.mem_insertionSort _).mp ((List.destutter_sublist _ _).subset h)

/-- **Dropping repetitions is sound**: equal canonical operands read alike. -/
theorem all_kept (hu : ∀ c ∈ clauses, c.2.Unique) (doc : Doc) (element : Option Value) :
    (kept ft clauses).all (readClause doc element) = clauses.all (readClause doc element) := by
  unfold kept
  rw [all_destutter (fun c => ⟨rfl, rfl⟩) (pairSame_trans ft), (List.perm_insertionSort _ _).all_eq]
  intro a ha b hb hab
  rw [List.mem_insertionSort] at ha hb
  have hcanon : sortKeys a.2 = sortKeys b.2 := canonical_inj ft (String.ofList_injective hab.2)
  rw [← readClause_sortKeys doc element (hu a ha), ← readClause_sortKeys doc element (hu b hb),
    hab.1, hcanon]

theorem kept_kept (clauses : List (String × Value)) : kept ft (kept ft clauses) = kept ft clauses := by
  have hsorted : (kept ft clauses).Pairwise (pairLe ft) :=
    (List.pairwise_insertionSort _ _).sublist (List.destutter_sublist _ _)
  rw [kept, hsorted.insertionSort_eq]
  exact List.destutter_idem _ _

theorem sum_kept_le (clauses : List (String × Value)) (f : String × Value → Nat) :
    ((kept ft clauses).map f).sum ≤ (clauses.map f).sum := by
  have hsub := (List.destutter_sublist (fun a b => ¬ pairSame ft a b)
    (clauses.insertionSort (pairLe ft))).map f
  have hperm := (List.perm_insertionSort (pairLe ft) clauses).map f
  exact hsub.sum_le_sum (by simp) |>.trans hperm.sum_eq.le

/-! ### Clauses of a filter -/

theorem mem_andItems {ν : Type} {map : List (String × Json String ν)} {i : Json String ν} :
    i ∈ andItems map ↔ ∃ m ∈ map, isAnd m = true ∧ ∃ items, m.2 = .array items ∧ i ∈ items := by
  induction map with
  | nil => simp [andItems]
  | cons m rest ih =>
    obtain ⟨key, value⟩ := m
    simp only [List.mem_cons, or_and_right, exists_or, exists_eq_left, ← ih]
    cases hk : clauseKey key <;> cases value <;> simp [andItems, isAnd, hk, or_comm]

/-- Each clause of a filter is one of its own or comes from a filter of its `$and`. -/
theorem mem_clausesOf_object {c : String × Value} :
    c ∈ clausesOf ft (.object map) ↔
      (∃ m ∈ map, isAnd m = false ∧ normalClause ft m = c) ∨
        ∃ i ∈ andItems map, c ∈ clausesOf ft i := by
  rw [clausesOf_object, List.mem_append, List.mem_map, List.mem_flatMap]
  simp [List.mem_filter, and_assoc]

theorem clausesOf_of_not_object (h : ∀ map, v ≠ .object map) : clausesOf ft v = [] := by
  cases v with
  | object map => exact absurd rfl (h map)
  | _ => rfl

theorem normalClause_or (items : List Value) :
    normalClause ft ("$or", .array items) = ("$or", .array (items.map (normal ft))) := rfl

theorem normalClause_not (v : Value) : normalClause ft ("$not", v) = ("$not", normal ft v) := rfl

theorem normalClause_path {key : String} (hk : clauseKey key = .path) (ops : List (String × Value)) :
    normalClause ft (key, .object ops) = (key, .object ((normalOps ft ops).insertionSort keyLe)) := by
  simp only [normalClause, hk]

theorem normalOp_operators {name : String} (hn : opName name = .any) (hops : isOperatorObject ops = true) :
    normalOp ft (name, .object ops) = (name, .object ((normalOps ft ops).insertionSort keyLe)) := by
  simp [normalOp, hn, hops]

theorem normalOp_filter {name : String} (hn : opName name = .any) (hops : isOperatorObject map = false) :
    normalOp ft (name, .object map) = (name, normal ft (.object map)) := by
  simp [normalOp, hn, hops]

theorem normalOp_leaf {o : String × Value} (hn : opName o.1 ≠ .any) : normalOp ft o = o := by
  simp [normalOp, hn]

/-- What a valid operator is. -/
theorem opOk_cases {o : String × Value} (h : opsOk n ops = true) (ho : o ∈ ops) :
    (∃ name inner, o = (name, .object inner) ∧ opName name = .any ∧ isOperatorObject inner = true ∧ n - 1 ≠ 0 ∧
      opsOk (n - 1) inner = true) ∨
    (∃ name map, o = (name, .object map) ∧ opName name = .any ∧ isOperatorObject map = false ∧
      filterOk (n - 1) true (.object map) = true) ∨
    (opName o.1 ≠ .any ∧ leafOk o.1 o.2 = true) := by
  rw [opsOk_eq, List.all_eq_true] at h
  have hok := h o ho
  obtain ⟨name, operand⟩ := o
  by_cases hn : opName name = .any
  · cases operand with
    | object map => cases hops : isOperatorObject map <;> simp_all [opOk]
    | _ => simp [opOk, hn] at hok
  · exact .inr (.inr ⟨hn, by simpa [opOk, hn] using hok⟩)

/-- What a valid clause other than `$and` is. -/
theorem clauseOk_cases {m : String × Value} (hand : isAnd m = false) (h : clauseOk n inAny m = true) :
    (∃ items, m = ("$or", .array items) ∧ items.isEmpty = false ∧
        ∀ i ∈ items, filterOk (n - 1) inAny i = true) ∨
      (∃ v, m = ("$not", v) ∧ filterOk (n - 1) inAny v = true) ∨
      ∃ key ops, m = (key, .object ops) ∧ clauseKey key = .path ∧ pathOk key inAny = true ∧
        ops.isEmpty = false ∧ ops.all (fun o => startsWithDollar o.1) = true ∧ opsOk n ops = true := by
  obtain ⟨key, value⟩ := m
  unfold clauseOk at h
  cases hk : clauseKey key with
  | and => simp [isAnd, hk] at hand
  | or =>
    obtain rfl := clauseKey_or hk
    cases value with
    | array items => exact .inl ⟨items, rfl, by simpa [hk] using h⟩
    | _ => simp [hk] at h
  | not =>
    obtain rfl := clauseKey_not hk
    exact .inr (.inl ⟨value, rfl, by simpa [hk] using h⟩)
  | path =>
    cases value with
    | object ops => exact .inr (.inr ⟨key, ops, rfl, hk, by simpa [hk, and_assoc] using h⟩)
    | _ => simp [hk] at h
  | _ => cases value <;> simp [hk] at h

theorem isAnd_normalClause {m : String × Value} (h : isAnd m = false) :
    isAnd (normalClause ft m) = false := by
  obtain ⟨key, value⟩ := m
  cases hk : clauseKey key <;> cases value <;> simp_all [normalClause, isAnd] <;> decide

theorem isAnd_of_mem_clausesOf (v : Value) : ∀ c ∈ clausesOf ft v, isAnd c = false := by
  refine (filter_induct (F := fun v => ∀ c ∈ clausesOf ft v, isAnd c = false) (O := fun _ => True)
    (fun map ih => ⟨?_, trivial⟩) fun v hv => ?_).1 v
  · intro c hc
    rcases (mem_clausesOf_object ft).mp hc with ⟨m, _, hm, rfl⟩ | ⟨i, hi, hc⟩
    · exact isAnd_normalClause ft hm
    · obtain ⟨m, hm, _, items, hitems, hi⟩ := mem_andItems.mp hi
      exact (ih m hm).2.2 items hitems i hi c hc
  · rw [clausesOf_of_not_object ft hv]
    simp

theorem clausesOf_single {c : String × Value} (h : isAnd c = false) :
    clausesOf ft (.object [c]) = [normalClause ft c] := by
  have hitems : andItems [c] = [] := by
    obtain ⟨key, value⟩ := c
    cases hk : clauseKey key <;> cases value <;> simp_all [andItems, isAnd]
  simp [clausesOf_object, h, hitems]

/-- The clauses of a normal form are the clauses wrapped in it. -/
theorem clausesOf_wrap (h : ∀ c ∈ clauses, isAnd c = false ∧ normalClause ft c = c) :
    clausesOf ft (wrap clauses) = clauses := by
  cases clauses with
  | nil => rfl
  | cons c rest =>
    show clausesOf ft (.object [("$and", .array ((c :: rest).map fun c => .object [c]))]) = _
    have hitems : andItems [("$and", Json.array ((c :: rest).map fun c => Json.object [c]))] =
        (c :: rest).map fun c => Json.object [c] := rfl
    rw [clausesOf_object, hitems, List.flatMap_map]
    show [] ++ (c :: rest).flatMap (fun c => clausesOf ft (.object [c])) = c :: rest
    rw [List.nil_append]
    conv_rhs => rw [← List.flatMap_singleton' (c :: rest)]
    exact List.flatMap_congr fun d hd => by rw [clausesOf_single ft (h d hd).1, (h d hd).2]

/-! ### Idempotence -/

theorem normal_fixed (h : ∀ c ∈ clausesOf ft v, normalClause ft c = c) :
    normal ft (normal ft v) = normal ft v := by
  have hkept : ∀ c ∈ kept ft (clausesOf ft v), isAnd c = false ∧ normalClause ft c = c :=
    fun c hc => ⟨isAnd_of_mem_clausesOf ft v c (mem_of_mem_kept ft hc), h c (mem_of_mem_kept ft hc)⟩
  rw [normal, normal, clausesOf_wrap ft hkept, kept_kept]

theorem normalOps_sorted (h : ∀ o ∈ ops, normalOp ft (normalOp ft o) = normalOp ft o) :
    (normalOps ft ((normalOps ft ops).insertionSort keyLe)).insertionSort keyLe =
      (normalOps ft ops).insertionSort keyLe := by
  have hfixed : normalOps ft ((normalOps ft ops).insertionSort keyLe) =
      (normalOps ft ops).insertionSort keyLe := by
    rw [normalOps_eq ft (List.insertionSort _ _)]
    conv_rhs => rw [← List.map_id (List.insertionSort _ _)]
    refine List.map_congr_left fun o ho => ?_
    rw [List.mem_insertionSort, normalOps_eq, List.mem_map] at ho
    obtain ⟨o, ho, rfl⟩ := ho
    exact h o ho
  rw [hfixed, (List.pairwise_insertionSort _ _).insertionSort_eq]

/-- Clauses of a filter and operators of an operator object are fixed once normalized. -/
theorem normal_idem :
    (∀ v : Value, ∀ c ∈ clausesOf ft v, normalClause ft c = c) ∧
    ∀ ops : List (String × Value), ∀ o ∈ ops, normalOp ft (normalOp ft o) = normalOp ft o := by
  refine filter_induct (fun map ih => ⟨?_, ?_⟩) fun v hv => ?_
  · intro c hc
    rcases (mem_clausesOf_object ft).mp hc with ⟨m, hm, hand, rfl⟩ | ⟨i, hi, hc⟩
    · obtain ⟨key, value⟩ := m
      obtain ⟨hF, hO, hitems⟩ := ih _ hm
      cases hk : clauseKey key with
      | and => simp [isAnd, hk] at hand
      | or =>
        cases value with
        | array items =>
          obtain rfl := clauseKey_or hk
          have hi : ∀ i ∈ items, normal ft (normal ft i) = normal ft i :=
            fun i hi => normal_fixed ft (hitems items rfl i hi)
          simpa [normalClause_or] using hi
        | _ => simp [normalClause, hk]
      | not =>
        obtain rfl := clauseKey_not hk
        rw [normalClause_not, normalClause_not, normal_fixed ft hF]
      | path =>
        cases value with
        | object ops =>
          rw [normalClause_path ft hk, normalClause_path ft hk, normalOps_sorted ft (hO ops rfl)]
        | _ => simp [normalClause, hk]
      | _ => cases value <;> simp [normalClause, hk]
    · obtain ⟨m, hm, _, items, hitems, hi⟩ := mem_andItems.mp hi
      exact (ih m hm).2.2 items hitems i hi c hc
  · intro o ho
    obtain ⟨name, operand⟩ := o
    obtain ⟨hF, hO, -⟩ := ih _ ho
    by_cases hn : opName name = .any
    · cases operand with
      | object ops =>
        by_cases hops : isOperatorObject ops = true
        · simp [normalOp, hn, hops, isOperatorObject_normal, normalOps_sorted ft (hO ops rfl)]
        · obtain ⟨map', hwrap, hform⟩ := isOperatorObject_wrap (kept ft (clausesOf ft (.object ops)))
          have hnormal : normal ft (.object ops) = .object map' := hwrap
          have hfixed := normal_fixed ft hF
          simp only [hnormal] at hfixed
          simp [normalOp, hn, hops, hnormal, hform, hfixed]
      | _ => simp [normalOp, hn]
    · simp [normalOp, hn]
  · rw [clausesOf_of_not_object ft hv]
    simp

/-- **Normalizing twice is normalizing once.** -/
theorem normal_normal (v : Value) : normal ft (normal ft v) = normal ft v :=
  normal_fixed ft ((normal_idem ft).1 v)

/-! ### Validity -/

theorem filterOk_wrap (n : Nat) (inAny : Bool) (clauses : List (String × Value)) :
    filterOk n inAny (wrap clauses) = (n ≠ 0 && clauses.all (clauseOk n inAny)) := by
  cases clauses with
  | nil => simp [wrap, filterOk_object]
  | cons c rest =>
    show filterOk n inAny (.object [("$and", .array ((c :: rest).map fun c => .object [c]))]) = _
    rw [filterOk_object, List.all_cons, List.all_nil, Bool.and_true]
    show (n ≠ 0 && (!((c :: rest).map fun c => Json.object [c]).isEmpty &&
      ((c :: rest).map fun c => Json.object [c]).all (filterOk n inAny))) = _
    rw [List.all_map]
    by_cases hn : n = 0
    · simp [hn]
    · simp [hn, filterOk_object, Function.comp_def]

theorem filterOk_ne_zero (h : filterOk n inAny v = true) :
    n ≠ 0 := by
  cases v with
  | object map =>
    rw [filterOk_object] at h
    simp only [Bool.and_eq_true, decide_eq_true_eq] at h
    exact h.1
  | _ => simp [filterOk] at h

/-- The filters the `$and` of a valid filter holds are valid. -/
theorem filterOk_andItems (h : filterOk n inAny (.object map) = true) :
    ∀ i ∈ andItems map, filterOk n inAny i = true := by
  rw [filterOk_object, clausesOk_split] at h
  simp only [Bool.and_eq_true, List.all_eq_true] at h
  exact h.2.2

theorem clauseOk_of_filterOk (h : filterOk n inAny (.object map) = true) :
    ∀ m ∈ map, clauseOk n inAny m = true := by
  rw [filterOk_object] at h
  simp only [Bool.and_eq_true, List.all_eq_true] at h
  exact h.2

theorem filterOk_normal_of (h : filterOk n inAny v = true)
    (hc : ∀ c ∈ clausesOf ft v, clauseOk n inAny c = true) : filterOk n inAny (normal ft v) = true := by
  rw [normal, filterOk_wrap, Bool.and_eq_true, List.all_eq_true]
  exact ⟨by simpa using filterOk_ne_zero h, fun c hk => hc c (mem_of_mem_kept ft hk)⟩

theorem opsOk_sorted (h : ∀ o ∈ ops, opOk n (normalOp ft o) = true) :
    opsOk n ((normalOps ft ops).insertionSort keyLe) = true := by
  rw [opsOk_eq, (List.perm_insertionSort _ _).all_eq, normalOps_eq, List.all_map, List.all_eq_true]
  exact h

/-- Clauses and operators stay valid. -/
theorem ok_normal :
    (∀ v : Value, ∀ n inAny, filterOk n inAny v = true →
      ∀ c ∈ clausesOf ft v, clauseOk n inAny c = true) ∧
    ∀ ops : List (String × Value), ∀ n, opsOk n ops = true →
      ∀ o ∈ ops, opOk n (normalOp ft o) = true := by
  refine filter_induct (fun map ih => ⟨?_, ?_⟩) fun v hv => ?_
  · intro n inAny h c hc
    rcases (mem_clausesOf_object ft).mp hc with ⟨m, hm, hand, rfl⟩ | ⟨i, hi, hc⟩
    · obtain ⟨hF, hO, hitems⟩ := ih m hm
      rcases clauseOk_cases hand (clauseOk_of_filterOk h m hm) with
        ⟨items, rfl, hne, hi⟩ | ⟨v, rfl, hv⟩ | ⟨key, ops, rfl, hk, hpath, hne, hdollar, hops⟩
      · rw [normalClause_or]
        show (!(items.map (normal ft)).isEmpty && (items.map (normal ft)).all (filterOk (n - 1) inAny)) = _
        rw [List.all_map, Bool.and_eq_true, List.all_eq_true]
        exact ⟨by simpa using hne, fun i hmem =>
          filterOk_normal_of ft (hi i hmem) (hitems items rfl i hmem _ _ (hi i hmem))⟩
      · rw [normalClause_not]
        exact filterOk_normal_of ft hv (hF _ _ hv)
      · rw [normalClause_path ft hk]
        have hperm := List.perm_insertionSort keyLe (normalOps ft ops)
        simp only [clauseOk, hk, hpath, Bool.true_and, Bool.and_eq_true, Bool.not_eq_true']
        refine ⟨⟨?_, ?_⟩, opsOk_sorted ft (hO ops rfl n hops)⟩
        · rw [hperm.isEmpty_eq, normalOps_eq, List.isEmpty_map]
          exact hne
        · rw [hperm.all_eq, normalOps_eq, List.all_map]
          exact hdollar
    · obtain ⟨m, hm, _, items, hitems, hi'⟩ := mem_andItems.mp hi
      exact (ih m hm).2.2 items hitems i hi' n inAny (filterOk_andItems h i hi) c hc
  · intro n h o ho
    obtain ⟨hF, hO, -⟩ := ih o ho
    rcases opOk_cases h ho with ⟨name, inner, rfl, hn, hops, hne, hinner⟩ | ⟨name, map, rfl, hn, hops, hmap⟩ | ⟨hn, hleaf⟩
    · have hsorted := opsOk_sorted ft (hO inner rfl _ hinner)
      simp [opOk, normalOp_operators ft hn hops, hn, hops, isOperatorObject_normal, hne, hsorted]
    · obtain ⟨map', hwrap, hform⟩ := isOperatorObject_wrap (kept ft (clausesOf ft (.object map)))
      have hok : filterOk (n - 1) true (.object map') = true := hwrap ▸ filterOk_normal_of ft hmap (hF _ _ hmap)
      simp [opOk, normalOp_filter ft hn hops, hn, show normal ft (.object map) = .object map' from hwrap, hform, hok]
    · simp [opOk, normalOp_leaf ft hn, hn, hleaf]
  · intro n inAny h
    cases v with
    | object map => exact absurd rfl (hv map)
    | _ => simp [filterOk] at h

/-- **The normal form of a filter is a filter** of the same depth. -/
theorem filterOk_normal (h : filterOk n inAny v = true) :
    filterOk n inAny (normal ft v) = true :=
  filterOk_normal_of ft h ((ok_normal ft).1 v n inAny h)

/-! ### Nodes -/

theorem filterNodes_wrap (clauses : List (String × Value)) :
    filterNodes (wrap clauses) = (clauses.map clauseNodes).sum := by
  cases clauses with
  | nil => rfl
  | cons c rest =>
    show filterNodes (.object [("$and", .array ((c :: rest).map fun c => .object [c]))]) = _
    rw [filterNodes_object, List.map_singleton, List.sum_singleton]
    show (((c :: rest).map fun c => Json.object [c]).map filterNodes).sum = _
    rw [List.map_map]
    exact congrArg List.sum (List.map_congr_left fun c _ => by simp [filterNodes_object])

theorem filterNodes_normal_of (h : ((clausesOf ft v).map clauseNodes).sum ≤ filterNodes v) :
    filterNodes (normal ft v) ≤ filterNodes v := by
  rw [normal, filterNodes_wrap]
  exact (sum_kept_le ft _ _).trans h

theorem opsNodes_sorted (h : ∀ o ∈ ops, opNodes (normalOp ft o) ≤ opNodes o) :
    opsNodes ((normalOps ft ops).insertionSort keyLe) ≤ opsNodes ops := by
  rw [opsNodes_eq, opsNodes_eq, ((List.perm_insertionSort _ _).map opNodes).sum_eq, normalOps_eq,
    List.map_map]
  exact List.sum_le_sum h

/-- Clauses and operators never get more nodes. -/
theorem nodes_normal :
    (∀ v : Value, ((clausesOf ft v).map clauseNodes).sum ≤ filterNodes v) ∧
    ∀ ops : List (String × Value), ∀ o ∈ ops, opNodes (normalOp ft o) ≤ opNodes o := by
  refine filter_induct (fun map ih => ⟨?_, ?_⟩) fun v hv => ?_
  · have hown : ∀ m ∈ map.filter (fun m => !isAnd m),
        clauseNodes (normalClause ft m) ≤ entryNodes m := by
      intro m hm
      obtain ⟨hm, hand⟩ := List.mem_filter.mp hm
      obtain ⟨key, value⟩ := m
      obtain ⟨hF, hO, hitems⟩ := ih _ hm
      rw [entryNodes, if_neg (by simpa using hand)]
      cases hk : clauseKey key with
      | or =>
        obtain rfl := clauseKey_or hk
        cases value with
        | array items =>
          show 1 + ((items.map (normal ft)).map filterNodes).sum ≤ 1 + (items.map filterNodes).sum
          rw [List.map_map]
          exact Nat.add_le_add_left (List.sum_le_sum fun i hi =>
            filterNodes_normal_of ft (hitems items rfl i hi)) 1
        | _ => exact le_rfl
      | not =>
        obtain rfl := clauseKey_not hk
        rw [normalClause_not]
        exact Nat.add_le_add_left (filterNodes_normal_of ft hF) 1
      | path =>
        cases value with
        | object ops =>
          rw [normalClause_path ft hk]
          simp only [clauseNodes, hk]
          exact opsNodes_sorted ft (hO ops rfl)
        | _ => simp [normalClause, hk]
      | _ => cases value <;> simp [normalClause, hk]
    have hand : (((andItems map).flatMap (clausesOf ft)).map clauseNodes).sum ≤
        ((andItems map).map filterNodes).sum := by
      refine sum_flatMap_le fun i hi => ?_
      obtain ⟨m, hm, _, items, hitems, hi'⟩ := mem_andItems.mp hi
      exact (ih m hm).2.2 items hitems i hi'
    have hsplit : ((map.filter fun m => !isAnd m).map entryNodes).sum ≤ (map.map entryNodes).sum :=
      (List.filter_sublist.map _).sum_le_sum (by simp)
    rw [clausesOf_object, List.map_append, List.sum_append, filterNodes_object,
      clauseNodes_split map, List.map_map]
    exact Nat.add_le_add ((List.sum_le_sum hown).trans hsplit) hand
  · intro o ho
    obtain ⟨name, operand⟩ := o
    obtain ⟨hF, hO, -⟩ := ih _ ho
    by_cases hn : opName name = .any
    · cases operand with
      | object ops =>
        by_cases hops : isOperatorObject ops = true
        · simpa [opNodes, normalOp, hn, hops, isOperatorObject_normal]
            using opsNodes_sorted ft (hO ops rfl)
        · obtain ⟨map', hwrap, hform⟩ := isOperatorObject_wrap (kept ft (clausesOf ft (.object ops)))
          have heq : normal ft (.object ops) = .object map' := hwrap
          simpa [opNodes, normalOp, hn, hops, heq, hform] using filterNodes_normal_of ft hF
      | _ => simp [opNodes, normalOp, hn]
    · simp [opNodes, normalOp, hn]
  · rw [clausesOf_of_not_object ft hv]
    simp

theorem filterNodes_normal (v : Value) : filterNodes (normal ft v) ≤ filterNodes v :=
  filterNodes_normal_of ft ((nodes_normal ft).1 v)

/-! ### Distinct keys -/

theorem unique_wrap (h : ∀ c ∈ clauses, c.2.Unique) :
    (wrap clauses).Unique := by
  cases clauses with
  | nil => simp [wrap, Json.unique_object]
  | cons c rest =>
    show Json.Unique (.object [("$and", .array ((c :: rest).map fun c => .object [c]))])
    rw [Json.unique_object]
    refine ⟨by simp, ?_⟩
    intro m hm
    obtain rfl := List.mem_singleton.mp hm
    rw [Json.unique_array]
    intro j hj
    obtain ⟨d, hd, rfl⟩ := List.mem_map.mp hj
    simpa [Json.unique_object] using h d hd

theorem unique_sorted (hu : (ops.map (·.1)).Nodup) (h : ∀ o ∈ ops, (normalOp ft o).2.Unique) :
    Json.Unique (.object ((normalOps ft ops).insertionSort keyLe)) := by
  have hperm := List.perm_insertionSort keyLe (normalOps ft ops)
  rw [Json.unique_object]
  constructor
  · rw [(hperm.map _).nodup_iff, normalOps_eq, List.map_map]
    exact hu
  · intro o ho
    rw [hperm.mem_iff, normalOps_eq, List.mem_map] at ho
    obtain ⟨o, ho, rfl⟩ := ho
    exact h o ho

theorem unique_normal_of (h : ∀ c ∈ clausesOf ft v, c.2.Unique) :
    (normal ft v).Unique := unique_wrap fun c hc => h c (mem_of_mem_kept ft hc)

/-- Clauses and operators keep distinct keys. -/
theorem unique_clauses :
    (∀ v : Value, v.Unique → ∀ c ∈ clausesOf ft v, c.2.Unique) ∧
    ∀ ops : List (String × Value), (∀ o ∈ ops, o.2.Unique) →
      ∀ o ∈ ops, (normalOp ft o).2.Unique := by
  refine filter_induct (fun map ih => ⟨?_, ?_⟩) fun v hv => ?_
  · intro hu c hc
    rw [Json.unique_object] at hu
    rcases (mem_clausesOf_object ft).mp hc with ⟨m, hm, hand, rfl⟩ | ⟨i, hi, hc⟩
    · obtain ⟨key, value⟩ := m
      obtain ⟨hF, hO, hitems⟩ := ih _ hm
      have hvu := hu.2 _ hm
      cases hk : clauseKey key with
      | or =>
        obtain rfl := clauseKey_or hk
        cases value with
        | array items =>
          rw [normalClause_or]
          refine Json.unique_array.mpr fun j hj => ?_
          obtain ⟨i, hi, rfl⟩ := List.mem_map.mp hj
          exact unique_normal_of ft (hitems items rfl i hi (Json.unique_array.mp hvu i hi))
        | _ => exact hvu
      | not =>
        obtain rfl := clauseKey_not hk
        exact unique_normal_of ft (hF hvu)
      | path =>
        cases value with
        | object ops =>
          rw [normalClause_path ft hk]
          have hops := Json.unique_object.mp hvu
          exact unique_sorted ft hops.1 (hO ops rfl hops.2)
        | _ => simpa [normalClause, hk] using hvu
      | _ => cases value <;> simpa [normalClause, hk] using hvu
    · obtain ⟨m, hm, _, items, hitems, hi'⟩ := mem_andItems.mp hi
      have hvu := hu.2 _ hm
      rw [hitems, Json.unique_array] at hvu
      exact (ih m hm).2.2 items hitems i hi' (hvu i hi') c hc
  · intro hu o ho
    obtain ⟨name, operand⟩ := o
    obtain ⟨hF, hO, -⟩ := ih _ ho
    have hvu := hu _ ho
    by_cases hn : opName name = .any
    · cases operand with
      | object ops =>
        cases hops : isOperatorObject ops with
        | true =>
          have hou := Json.unique_object.mp hvu
          rw [normalOp_operators ft hn hops]
          exact unique_sorted ft hou.1 (hO ops rfl hou.2)
        | false =>
          rw [normalOp_filter ft hn hops]
          exact unique_normal_of ft (hF hvu)
      | _ => simpa [normalOp, hn] using hvu
    · rwa [normalOp_leaf ft hn]
  · rw [clausesOf_of_not_object ft hv]
    simp

/-! ### Meaning -/

theorem readFilter_normal_of (hu : v.Unique) {doc : Doc} {element : Option Value}
    (h : (clausesOf ft v).all (readClause doc element) = readFilter doc element v) :
    readFilter doc element (normal ft v) = readFilter doc element v := by
  rw [normal, readFilter_wrap, all_kept ft ((unique_clauses ft).1 v hu), h]

theorem readOps_sorted {doc : Doc} {value : Option Value}
    (h : ∀ o ∈ ops, readOp doc value (normalOp ft o) = readOp doc value o) :
    readOps doc value ((normalOps ft ops).insertionSort keyLe) = readOps doc value ops := by
  rw [readOps_eq, readOps_eq, (List.perm_insertionSort _ _).all_eq, normalOps_eq, List.all_map]
  exact all_congr_mem h

/-- A filter is the conjunction of its own clauses and of the filters of its `$and`. -/
theorem all_split (doc : Doc) (element : Option Value) (n : Nat) (inAny : Bool)
    (map : List (String × Value)) (h : ∀ m ∈ map, clauseOk n inAny m = true) :
    map.all (readClause doc element) = ((map.filter fun m => !isAnd m).all (readClause doc element)
      && (andItems map).all (readFilter doc element)) := by
  induction map with
  | nil => rfl
  | cons m rest ih =>
    obtain ⟨key, value⟩ := m
    have hm := h _ (List.mem_cons_self ..)
    rw [List.all_cons, ih fun m hm => h m (List.mem_cons_of_mem _ hm), List.filter_cons]
    cases hk : clauseKey key with
    | and =>
      cases value with
      | array items =>
        simp [readClause, isAnd, andItems, hk, Bool.and_comm, Bool.and_assoc]
      | _ => simp [clauseOk, hk] at hm
    | _ => simp [isAnd, andItems, hk, Bool.and_assoc]

/-- Clauses and operators mean the same in normal form. -/
theorem read_normal :
    (∀ v : Value, ∀ n inAny, filterOk n inAny v = true → v.Unique → ∀ doc element,
      (clausesOf ft v).all (readClause doc element) = readFilter doc element v) ∧
    ∀ ops : List (String × Value), ∀ n, opsOk n ops = true → (∀ o ∈ ops, o.2.Unique) →
      ∀ doc value, ∀ o ∈ ops, readOp doc value (normalOp ft o) = readOp doc value o := by
  refine filter_induct (fun map ih => ⟨?_, ?_⟩) fun v hv => ?_
  · intro n inAny h hu doc element
    have hunique := Json.unique_object.mp hu
    have hclauses := clauseOk_of_filterOk h
    rw [clausesOf_object, readFilter_object, all_split doc element n inAny map hclauses,
      List.all_append, List.all_map, List.all_flatMap]
    congr 1
    · refine all_congr_mem fun m hm => ?_
      obtain ⟨hm, hand⟩ := List.mem_filter.mp hm
      obtain ⟨hF, hO, hitems⟩ := ih _ hm
      have hvu := hunique.2 _ hm
      rcases clauseOk_cases (by simpa using hand) (hclauses m hm) with
        ⟨items, rfl, hne, hi⟩ | ⟨v, rfl, hv⟩ | ⟨key, ops, rfl, hk, hpath, hne, hdollar, hops⟩
      · show ((items.map (normal ft)).any (readFilter doc element)) = items.any (readFilter doc element)
        rw [List.any_map]
        refine any_congr_mem fun i hmem => readFilter_normal_of ft (Json.unique_array.mp hvu i hmem) ?_
        exact hitems items rfl i hmem _ _ (hi i hmem) (Json.unique_array.mp hvu i hmem) doc element
      · show (!readFilter doc element (normal ft v)) = !readFilter doc element v
        rw [readFilter_normal_of ft hvu (hF _ _ hv hvu doc element)]
      · rw [Function.comp_apply, normalClause_path ft hk]
        simp only [readClause, hk]
        exact readOps_sorted ft (hO ops rfl n hops (Json.unique_object.mp hvu).2 doc _)
    · refine all_congr_mem fun i hi => ?_
      obtain ⟨m, hm, _, items, hitems, hi'⟩ := mem_andItems.mp hi
      have hvu := hunique.2 _ hm
      rw [hitems, Json.unique_array] at hvu
      exact (ih m hm).2.2 items hitems i hi' n inAny (filterOk_andItems h i hi) (hvu i hi') doc element
  · intro n h hu doc value o ho
    obtain ⟨hF, hO, -⟩ := ih o ho
    have hvu := hu o ho
    rcases opOk_cases h ho with ⟨name, inner, rfl, hn, hops, -, hinner⟩ | ⟨name, map, rfl, hn, hops, hmap⟩ | ⟨hn, -⟩
    · have hany : ∀ item, readAny doc item ((normalOps ft inner).insertionSort keyLe) = readAny doc item inner := by
        intro item
        rw [readAny, readAny, isOperatorObject_normal, if_pos hops, if_pos hops]
        exact readOps_sorted ft (hO inner rfl _ hinner (Json.unique_object.mp hvu).2 doc _)
      rw [normalOp_operators ft hn hops]
      exact readOp_any hn hany
    · obtain ⟨map', hwrap, hform⟩ := isOperatorObject_wrap (kept ft (clausesOf ft (.object map)))
      have heq : normal ft (.object map) = .object map' := hwrap
      have hany : ∀ item, readAny doc item map' = readAny doc item map := by
        intro item
        rw [readAny, readAny, if_neg (by simp [hform]), if_neg (by simp [hops]), ← heq]
        exact readFilter_normal_of ft hvu (hF _ _ hmap hvu doc _)
      rw [normalOp_filter ft hn hops, heq]
      exact readOp_any hn hany
    · rw [normalOp_leaf ft hn]
  · intro n inAny h
    cases v with
    | object map => exact absurd rfl (hv map)
    | _ => simp [filterOk] at h

/-- **The normal form matches the documents the filter matches.** -/
theorem readFilter_normal (h : filterOk n inAny v = true) (hu : v.Unique) (doc : Doc) (element : Option Value) :
    readFilter doc element (normal ft v) = readFilter doc element v :=
  readFilter_normal_of ft hu ((read_normal ft).1 v n inAny h hu doc element)

/-! ### Roots -/

/-- Which roots a filter mentions does not depend on the order of its keys. -/
theorem mentions_sortKeys (r : Root) (inAny : Bool) (v : Value) :
    mentions r inAny (sortKeys v) = mentions r inAny v := by
  refine (filter_induct (F := fun v => mentions r inAny (sortKeys v) = mentions r inAny v)
    (O := fun _ => True) (fun map ih => ⟨?_, trivial⟩) fun v hv => ?_).1 v
  · rw [sortKeys_object, mentions_object, mentions_object, (sorted_perm map).any_eq, List.any_map]
    refine any_congr_mem fun m hm => ?_
    obtain ⟨key, value⟩ := m
    obtain ⟨hF, -, hitems⟩ := ih _ hm
    show clauseMentions r inAny (key, sortKeys value) = clauseMentions r inAny (key, value)
    unfold clauseMentions
    cases value with
    | array items =>
      have hi : ∀ i ∈ items, mentions r inAny (sortKeys i) = mentions r inAny i := hitems items rfl
      cases hk : clauseKey key with
      | and =>
        simp only [sortKeys_array, List.any_map]
        exact any_congr_mem hi
      | or =>
        simp only [sortKeys_array, List.any_map]
        exact any_congr_mem hi
      | not => exact hF
      | _ => simp only
    | object ops =>
      cases hk : clauseKey key with
      | not => exact hF
      | _ => simp only [sortKeys_object]
    | _ => rfl
  · cases v with
    | object map => exact absurd rfl (hv map)
    | array items => rw [sortKeys_array]; rfl
    | _ => rfl

theorem clauseMentions_sortKeys (r : Root) (inAny : Bool) (c : String × Value) :
    clauseMentions r inAny (c.1, sortKeys c.2) = clauseMentions r inAny c := by
  have h := mentions_sortKeys r inAny (.object [c])
  rw [sortKeys_object, mentions_object, mentions_object, (sorted_perm [c]).any_eq] at h
  simpa using h

theorem mentions_normal_of {r : Root} (h : (clausesOf ft v).any (clauseMentions r inAny) = mentions r inAny v) :
    mentions r inAny (normal ft v) = mentions r inAny v := by
  rw [normal, mentions_wrap, ← h]
  unfold kept
  rw [any_destutter (fun c => ⟨rfl, rfl⟩) (pairSame_trans ft), (List.perm_insertionSort _ _).any_eq]
  intro a _ b _ hab
  have hcanon : sortKeys a.2 = sortKeys b.2 := canonical_inj ft (String.ofList_injective hab.2)
  rw [← clauseMentions_sortKeys, ← clauseMentions_sortKeys r inAny b, hab.1, hcanon]

/-- A filter mentions what its own clauses and the filters of its `$and` mention. -/
theorem mentions_split (r : Root) (inAny : Bool) (map : List (String × Value)) :
    map.any (clauseMentions r inAny) = ((map.filter fun m => !isAnd m).any (clauseMentions r inAny)
      || (andItems map).any (mentions r inAny)) := by
  induction map with
  | nil => rfl
  | cons m rest ih =>
    obtain ⟨key, value⟩ := m
    rw [List.any_cons, ih, List.filter_cons]
    cases hk : clauseKey key with
    | and =>
      cases value with
      | array items => simp [clauseMentions, isAnd, andItems, hk, Bool.or_comm, Bool.or_assoc]
      | _ => simp [clauseMentions, isAnd, andItems, hk]
    | _ => simp [isAnd, andItems, hk, Bool.or_assoc]

theorem mentions_clauses (r : Root) (inAny : Bool) (v : Value) :
    (clausesOf ft v).any (clauseMentions r inAny) = mentions r inAny v := by
  refine (filter_induct
    (F := fun v => (clausesOf ft v).any (clauseMentions r inAny) = mentions r inAny v)
    (O := fun _ => True) (fun map ih => ⟨?_, trivial⟩) fun v hv => ?_).1 v
  · rw [clausesOf_object, mentions_object, mentions_split r inAny map, List.any_append, List.any_map,
      List.any_flatMap]
    congr 1
    · refine any_congr_mem fun m hm => ?_
      obtain ⟨hm, -⟩ := List.mem_filter.mp hm
      obtain ⟨key, value⟩ := m
      obtain ⟨hF, -, hitems⟩ := ih _ hm
      rw [Function.comp_apply]
      cases hk : clauseKey key with
      | or =>
        obtain rfl := clauseKey_or hk
        cases value with
        | array items =>
          show (items.map (normal ft)).any (mentions r inAny) = items.any (mentions r inAny)
          rw [List.any_map]
          exact any_congr_mem fun i hi => mentions_normal_of ft (hitems items rfl i hi)
        | _ => rfl
      | not =>
        obtain rfl := clauseKey_not hk
        exact mentions_normal_of ft hF
      | path =>
        cases value with
        | object ops =>
          rw [normalClause_path ft hk]
          simp [clauseMentions, hk]
        | _ => simp [normalClause, hk]
      | _ => cases value <;> simp [normalClause, hk]
    · refine any_congr_mem fun i hi => ?_
      obtain ⟨m, hm, _, items, hitems, hi'⟩ := mem_andItems.mp hi
      exact (ih m hm).2.2 items hitems i hi'
  · rw [clausesOf_of_not_object ft hv]
    cases v with
    | object map => exact absurd rfl (hv map)
    | _ => rfl

/-- **The normal form mentions the roots the filter mentions.** -/
theorem mentions_normal (r : Root) (inAny : Bool) (v : Value) :
    mentions r inAny (normal ft v) = mentions r inAny v :=
  mentions_normal_of ft (mentions_clauses ft r inAny v)

/-- Nothing is kept of a filter only when it has no clauses. -/
theorem normal_eq_empty (v : Value) : normal ft v = .object [] ↔ clausesOf ft v = [] := by
  have hkept : kept ft (clausesOf ft v) = [] ↔ clausesOf ft v = [] := by
    rw [kept, List.destutter_eq_nil, ← List.length_eq_zero_iff, List.length_insertionSort,
      List.length_eq_zero_iff]
  rw [normal, ← hkept]
  cases kept ft (clausesOf ft v) with
  | nil => simp [wrap]
  | cons c rest => simp [wrap]

/-! ### Nesting

A filter depth costs at most four levels of JSON: the object, its `$and`, the object
of the clause, and one more for an operator object or the array of an `$or`. -/

theorem depth_wrap {k : Nat} (h : ∀ c ∈ clauses, c.2.depth ≤ k) :
    (wrap clauses).depth ≤ 3 + k := by
  cases clauses with
  | nil =>
    show (Json.object ([] : List (String × Value))).depth ≤ 3 + k
    simp only [Json.depth, Json.depthMembers]
    omega
  | cons c rest =>
    show Json.depth (.object [("$and", .array ((c :: rest).map fun c => .object [c]))]) ≤ 3 + k
    rw [Json.depth_object_le]
    refine ⟨by omega, fun m hm => ?_⟩
    obtain rfl := List.mem_singleton.mp hm
    rw [Json.depth_array_le]
    refine ⟨by omega, fun j hj => ?_⟩
    obtain ⟨d, hd, rfl⟩ := List.mem_map.mp hj
    rw [Json.depth_object_le]
    refine ⟨by omega, fun m hm => ?_⟩
    obtain rfl := List.mem_singleton.mp hm
    have := h m hd
    omega

theorem depth_normal_of {k : Nat} (h : ∀ c ∈ clausesOf ft v, c.2.depth ≤ k) :
    (normal ft v).depth ≤ 3 + k := depth_wrap fun c hc => h c (mem_of_mem_kept ft hc)

theorem depth_sorted {k : Nat} (h : ∀ o ∈ ops, (normalOp ft o).2.depth ≤ k) :
    Json.depth (.object ((normalOps ft ops).insertionSort keyLe)) ≤ 1 + k := by
  rw [Json.depth_object_le]
  refine ⟨by omega, fun o ho => ?_⟩
  rw [List.mem_insertionSort, normalOps_eq, List.mem_map] at ho
  obtain ⟨o, ho, rfl⟩ := ho
  have := h o ho
  omega

/-- The operand of a leaf is a literal, or an array of them. -/
theorem depth_leaf {name : String} {operand : Value} (h : leafOk name operand = true) :
    operand.depth ≤ maxLiteralDepth + 1 := by
  have hliteral : literalOk operand = true → operand.depth ≤ maxLiteralDepth := by
    intro h
    simp only [literalOk, Bool.and_eq_true, decide_eq_true_eq] at h
    exact h.2
  have hset : ∀ items, operand = .array items → items.all literalOk = true →
      operand.depth ≤ maxLiteralDepth + 1 := by
    rintro items rfl h
    rw [Json.depth_array_le]
    refine ⟨by omega, fun j hj => ?_⟩
    have := List.all_eq_true.mp h j hj
    simp only [literalOk, Bool.and_eq_true, decide_eq_true_eq] at this
    omega
  unfold leafOk at h
  cases hn : opName name with
  | eq => exact (hliteral (by simpa [hn] using h)).trans (Nat.le_succ _)
  | ne => exact (hliteral (by simpa [hn] using h)).trans (Nat.le_succ _)
  | inSet =>
    cases operand with
    | array items =>
      simp only [hn, Bool.and_eq_true] at h
      exact hset items rfl h.2
    | _ => simp [hn] at h
  | nin =>
    cases operand with
    | array items =>
      simp only [hn, Bool.and_eq_true] at h
      exact hset items rfl h.2
    | _ => simp [hn] at h
  | _ => cases operand <;> simp [hn, Json.depth] at h ⊢

theorem depth_clauses :
    (∀ v : Value, ∀ n inAny, filterOk n inAny v = true →
      ∀ c ∈ clausesOf ft v, c.2.depth ≤ 4 * (n - 1) + maxLiteralDepth + 2) ∧
    ∀ ops : List (String × Value), ∀ n, opsOk n ops = true →
      ∀ o ∈ ops, (normalOp ft o).2.depth ≤ 4 * (n - 1) + maxLiteralDepth + 1 := by
  refine filter_induct (fun map ih => ⟨?_, ?_⟩) fun v hv => ?_
  · intro n inAny h c hc
    rcases (mem_clausesOf_object ft).mp hc with ⟨m, hm, hand, rfl⟩ | ⟨i, hi, hc⟩
    · obtain ⟨hF, hO, hitems⟩ := ih m hm
      rcases clauseOk_cases hand (clauseOk_of_filterOk h m hm) with
        ⟨items, rfl, hne, hi⟩ | ⟨v, rfl, hv⟩ | ⟨key, ops, rfl, hk, hpath, hne, hdollar, hops⟩
      · rw [normalClause_or]
        refine Json.depth_array_le.mpr ⟨by omega, fun j hj => ?_⟩
        obtain ⟨i, hmem, rfl⟩ := List.mem_map.mp hj
        have hn := filterOk_ne_zero (hi i hmem)
        have := depth_normal_of ft (hitems items rfl i hmem _ _ (hi i hmem))
        omega
      · have hn := filterOk_ne_zero hv
        have : (normal ft v).depth ≤ _ := depth_normal_of ft (hF _ _ hv)
        rw [normalClause_not]
        show (normal ft v).depth ≤ _
        omega
      · rw [normalClause_path ft hk]
        have := depth_sorted ft (hO ops rfl n hops)
        show Json.depth (.object ((normalOps ft ops).insertionSort keyLe)) ≤ _
        omega
    · obtain ⟨m, hm, _, items, hitems, hi'⟩ := mem_andItems.mp hi
      exact (ih m hm).2.2 items hitems i hi' n inAny (filterOk_andItems h i hi) c hc
  · intro n h o ho
    obtain ⟨hF, hO, -⟩ := ih o ho
    rcases opOk_cases h ho with ⟨name, inner, rfl, hn, hops, hne, hinner⟩ | ⟨name, map, rfl, hn, hops, hmap⟩ | ⟨hn, hleaf⟩
    · have := depth_sorted ft (hO inner rfl _ hinner)
      rw [normalOp_operators ft hn hops]
      show Json.depth (.object ((normalOps ft inner).insertionSort keyLe)) ≤ _
      omega
    · have hne := filterOk_ne_zero hmap
      have : (normal ft (.object map)).depth ≤ _ := depth_normal_of ft (hF _ _ hmap)
      rw [normalOp_filter ft hn hops]
      show (normal ft (.object map)).depth ≤ _
      omega
    · have := depth_leaf hleaf
      rw [normalOp_leaf ft hn]
      omega
  · rw [clausesOf_of_not_object ft hv]
    simp

/-- The normal form of a filter nests far below the limit on raw JSON. -/
theorem depth_normal (h : filterOk maxDepth inAny v = true) :
    (normal ft v).depth ≤ 65 :=
  depth_normal_of ft ((depth_clauses ft).1 v maxDepth inAny h)

end Normal

end Iii.Filter
