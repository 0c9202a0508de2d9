import Iii.Filter.Limits
import Iii.Filter.Normal

/-! What holds of an accepted filter as a whole.

The SDKs check some limits on the whole value where the engine checks each operand. An
accepted filter holds no number but in an operand (`numbersOk_of_filterOk`). And a
normal form has no more values than its source has bytes (`count_normal`):
normalizing wraps every clause in an object of its own, but each clause was written
with at least as many bytes as it now has values. -/
namespace Iii.Filter
open Lib

/-! ### Numbers -/

theorem numbersOk_leaf {name : String} {operand : Value} (h : leafOk name operand = true) :
    numbersOk operand = true := by
  have hliteral : ∀ v, literalOk v = true → numbersOk v = true := by
    intro v h
    rw [literalOk, Bool.and_eq_true] at h
    exact h.1
  have hset : setOk operand = true → numbersOk operand = true := by
    intro h
    cases operand with
    | array items =>
      rw [setOk, Bool.and_eq_true, List.all_eq_true] at h
      rw [numbersOk_array]
      exact fun j hj => hliteral j (h.2 j hj)
    | _ => cases h
  cases hn : opName name with
  | eq => exact hliteral _ (by simpa [leafOk, hn] using h)
  | ne => exact hliteral _ (by simpa [leafOk, hn] using h)
  | inSet => exact hset (by rwa [leafOk_set (.inl hn)] at h)
  | nin => exact hset (by rwa [leafOk_set (.inr hn)] at h)
  | _ => cases operand <;> simp [leafOk, hn, numbersOk] at h ⊢ <;> exact h

theorem numbers_filter :
    (∀ v : Value, ∀ n inAny, filterOk n inAny v = true → numbersOk v = true) ∧
    ∀ ops : List (String × Value), ∀ n, opsOk n ops = true → ∀ o ∈ ops, numbersOk o.2 = true := by
  refine filter_induct (fun map ih => ⟨?_, ?_⟩) fun v hv => ?_
  · intro n inAny h
    rw [numbersOk_object]
    intro m hm
    obtain ⟨hF, hO, hitems⟩ := ih m hm
    have hclause := clauseOk_of_filterOk h m hm
    cases hand : isAnd m with
    | true =>
      obtain ⟨key, value⟩ := m
      have hk : clauseKey key = .and := by simpa [isAnd] using hand
      cases value with
      | array items =>
        simp only [clauseOk, hk, Bool.and_eq_true, List.all_eq_true] at hclause
        rw [numbersOk_array]
        exact fun i hi => hitems items rfl i hi _ _ (hclause.2 i hi)
      | _ => simp [clauseOk, hk] at hclause
    | false =>
      rcases clauseOk_cases hand hclause with
        ⟨items, rfl, hne, hi⟩ | ⟨v, rfl, hv⟩ | ⟨key, ops, rfl, hk, hpath, hne, hdollar, hops⟩
      · rw [numbersOk_array]
        exact fun i hmem => hitems items rfl i hmem _ _ (hi i hmem)
      · exact hF _ _ hv
      · rw [numbersOk_object]
        exact hO ops rfl n hops
  · intro n h o ho
    obtain ⟨hF, hO, -⟩ := ih o ho
    rcases opOk_cases h ho with ⟨name, inner, rfl, -, -, -, hinner⟩ | ⟨name, map, rfl, -, -, hmap⟩ | ⟨-, hleaf⟩
    · rw [numbersOk_object]
      exact hO inner rfl _ hinner
    · exact hF _ _ hmap
    · exact numbersOk_leaf hleaf
  · intro n inAny h
    cases v with
    | object map => exact absurd rfl (hv map)
    | _ => simp [filterOk] at h

/-- The numbers of a filter are all operands, or inside one. -/
theorem numbersOk_of_filterOk {n : Nat} {inAny : Bool} {v : Value} (h : filterOk n inAny v = true) :
    numbersOk v = true := numbers_filter.1 v n inAny h

/-! ### Values -/

variable (ft : FloatText)

theorem encodedSize_pos (v : Value) : 0 < encodedSize ft v := by
  have hlen : 0 < (write ft v).length := by
    cases v with
    | null => simp [write]
    | bool b => cases b <;> simp [write]
    | number n =>
      have hne := writeNumber_ne_nil ft n
      simpa [write] using List.length_pos_iff.mpr hne
    | string s => simp [write, writeString]
    | array items => cases items <;> simp [write]
    | object map => cases map <;> simp [write]
  have hle : ∀ l : List Char, l.length ≤ (utf8Code.encode l).length := by
    intro l
    induction l with
    | nil => simp
    | cons c rest ih =>
      have := List.length_pos_iff.mpr (utf8Code.ne_nil c)
      rw [LexCode.encode_cons, List.length_append, List.length_cons]
      omega
  exact hlen.trans_le (hle _)

/-- Every value takes at least one byte. -/
theorem count_le_encodedSize (v : Value) : v.count ≤ encodedSize ft v := by
  induction v using Json.ind with
  | array items ih =>
    have hsum : (items.map fun j => j.count).sum ≤ (items.map (encodedSize ft)).sum :=
      List.sum_le_sum ih
    rw [Json.count, Json.countItems_eq_sum, encodedSize_array]
    omega
  | object map ih =>
    have hsum : (map.map fun m => m.2.count).sum ≤
        (map.map fun m : String × Value => encodedSize ft m.2).sum := List.sum_le_sum ih
    rw [Json.count, Json.countMembers_eq_sum, encodedSize_object]
    omega
  | _ => exact encodedSize_pos ft _

/-- The values of a clause in a normal form, its own object included. -/
def weight (c : String × Value) : Nat := 1 + c.2.count

/-- The bytes of a member, without the comma. -/
def memberSize (m : String × Value) : Nat := 1 + encodedSize ft m.2

theorem members_le (map : List (String × Value)) :
    2 + (map.map (memberSize ft)).sum ≤ encodedSize ft (.object map) := by
  have hsplit : (map.map (memberSize ft)).sum =
      map.length + (map.map fun m => encodedSize ft m.2).sum := by
    induction map with
    | nil => rfl
    | cons m rest ih =>
      simp only [List.map_cons, List.sum_cons, List.length_cons, ih, memberSize]
      omega
  rw [hsplit, encodedSize_object]
  omega

/-- The filters of an `$and` are written inside its member. -/
theorem andItems_le (map : List (String × Value)) :
    ((map.filter fun m => !isAnd m).map (memberSize ft)).sum
      + ((andItems map).map (encodedSize ft)).sum ≤ (map.map (memberSize ft)).sum := by
  induction map with
  | nil => simp [andItems]
  | cons m rest ih =>
    obtain ⟨key, value⟩ := m
    rw [List.map_cons, List.sum_cons]
    cases hk : clauseKey key with
    | and =>
      cases value with
      | array items =>
        have := encodedSize_array ft items
        simp [isAnd, andItems, hk, memberSize] at ih ⊢
        omega
      | _ =>
        simp [isAnd, andItems, hk, memberSize] at ih ⊢
        omega
    | _ =>
      simp [isAnd, andItems, hk] at ih ⊢
      omega

theorem count_wrap (clauses : List (String × Value)) :
    (wrap clauses).count ≤ 2 + (clauses.map weight).sum := by
  cases clauses with
  | nil => simp [wrap, Json.count, Json.countMembers]
  | cons c rest =>
    have hsum : Json.countItems ((c :: rest).map fun c => Json.object [c]) =
        ((c :: rest).map weight).sum := by
      rw [Json.countItems_eq_sum, List.map_map]
      exact congrArg List.sum (List.map_congr_left fun c _ => by
        simp [Json.count, Json.countMembers, weight])
    show Json.count (.object [("$and", .array ((c :: rest).map fun c => Json.object [c]))]) ≤ _
    rw [Json.count, Json.countMembers, Json.count, Json.countMembers, hsum]
    omega

theorem count_normal_of {v : Value}
    (h : 2 + ((clausesOf ft v).map weight).sum ≤ encodedSize ft v) :
    (normal ft v).count ≤ encodedSize ft v := by
  have hkept := sum_kept_le ft (clausesOf ft v) weight
  have hwrap := count_wrap (kept ft (clausesOf ft v))
  rw [normal]
  omega

theorem count_sorted {ops : List (String × Value)}
    (h : ∀ o ∈ ops, (normalOp ft o).2.count ≤ encodedSize ft o.2) :
    Json.count (.object ((normalOps ft ops).insertionSort keyLe)) ≤ encodedSize ft (.object ops) := by
  have hperm := List.perm_insertionSort keyLe (normalOps ft ops)
  have hsum : (ops.map fun o => (normalOp ft o).2.count).sum ≤
      (ops.map fun o => encodedSize ft o.2).sum := List.sum_le_sum h
  rw [Json.count, Json.countMembers_eq_sum, (hperm.map _).sum_eq, normalOps_eq, List.map_map,
    encodedSize_object]
  simp only [Function.comp_def]
  omega

/-- What a filter is written with outweighs its clauses. -/
theorem weight_clauses :
    (∀ v : Value, ((normal ft v).count ≤ encodedSize ft v) ∧
      ((clausesOf ft v).map weight).sum ≤ encodedSize ft v) ∧
    ∀ ops : List (String × Value), ∀ o ∈ ops, (normalOp ft o).2.count ≤ encodedSize ft o.2 := by
  refine filter_induct (fun map ih => ⟨?_, ?_⟩) fun v hv => ?_
  · have hown : ∀ m ∈ map.filter fun m => !isAnd m, weight (normalClause ft m) ≤ memberSize ft m := by
      intro m hm
      obtain ⟨hF, hO, hitems⟩ := ih m (List.mem_of_mem_filter hm)
      obtain ⟨key, value⟩ := m
      refine Nat.add_le_add_left ?_ 1
      have hsame := count_le_encodedSize ft value
      cases hk : clauseKey key with
      | or =>
        cases value with
        | array items =>
          have hsum : ((items.map fun i => (normal ft i).count).sum) ≤
              (items.map (encodedSize ft)).sum :=
            List.sum_le_sum fun i hi => (hitems items rfl i hi).1
          simp only [normalClause, hk]
          rw [Json.count, Json.countItems_eq_sum, List.map_map, encodedSize_array]
          simp only [Function.comp_def]
          omega
        | _ => simpa [normalClause, hk] using hsame
      | not => simpa [normalClause, hk] using hF.1
      | path =>
        cases value with
        | object ops => simpa [normalClause, hk] using count_sorted ft (hO ops rfl)
        | _ => simpa [normalClause, hk] using hsame
      | _ => cases value <;> simpa [normalClause, hk] using hsame
    have hand : (((andItems map).flatMap (clausesOf ft)).map weight).sum ≤
        ((andItems map).map (encodedSize ft)).sum := by
      refine sum_flatMap_le fun i hi => ?_
      obtain ⟨m, hm, -, items, hitems, hi'⟩ := mem_andItems.mp hi
      exact ((ih m hm).2.2 items hitems i hi').2
    have hsum : 2 + ((clausesOf ft (.object map)).map weight).sum ≤ encodedSize ft (.object map) := by
      have howns : ((map.filter fun m => !isAnd m).map fun m => weight (normalClause ft m)).sum ≤
          ((map.filter fun m => !isAnd m).map (memberSize ft)).sum := List.sum_le_sum hown
      have hmembers := members_le ft map
      have hsplit := andItems_le ft map
      rw [clausesOf_object, List.map_append, List.sum_append, List.map_map]
      simp only [Function.comp_def]
      omega
    exact ⟨count_normal_of ft hsum, by omega⟩
  · intro o ho
    obtain ⟨name, operand⟩ := o
    obtain ⟨hF, hO, -⟩ := ih _ ho
    have hsame := count_le_encodedSize ft operand
    by_cases hn : opName name = .any
    · cases operand with
      | object ops =>
        by_cases hops : isOperatorObject ops = true
        · simpa [normalOp, hn, hops] using count_sorted ft (hO ops rfl)
        · simpa [normalOp, hn, hops] using hF.1
      | _ => simpa [normalOp, hn] using hsame
    · simpa [normalOp, hn] using hsame
  · have hempty := clausesOf_of_not_object ft hv
    have hpos := encodedSize_pos ft v
    refine ⟨?_, by simp [hempty]⟩
    rw [normal, hempty]
    exact hpos

/-- **A normal form has no more values than its source has bytes.** -/
theorem count_normal (v : Value) : (normal ft v).count ≤ encodedSize ft v :=
  ((weight_clauses ft).1 v).1

end Iii.Filter
