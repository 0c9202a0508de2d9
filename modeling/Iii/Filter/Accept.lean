import Iii.Filter.Leaves
import Iii.Lib.Budget
import Iii.Lib.Lists

/-! The parser against the language.

From any number of nodes already taken, the parser at a filter depth accepts
exactly the filters of the language whose nodes still fit, returns their normal form,
and compiles a node that reads as that normal form does (`level_correct`, by induction
on the depths left). The explicit `$and` stack is one lemma about the loop
(`collectClauses_spends`): what it has collected and what is still on the stack
together are the clauses of the filter. -/
namespace Iii.Filter
open Lib

/-! ### Compiled nodes and the values they read -/

mutual
/-- Some path node starts at `r`. -/
def Node.mentions (r : Root) : Node → Bool
  | .and nodes => Node.anyMentions r nodes
  | .or nodes => Node.anyMentions r nodes
  | .not node => Node.mentions r node
  | .path p _ => p.root = r
def Node.anyMentions (r : Root) : List Node → Bool
  | [] => false
  | n :: rest => Node.mentions r n || Node.anyMentions r rest
end

theorem Node.anyMentions_eq (r : Root) (nodes : List Node) :
    Node.anyMentions r nodes = nodes.any (Node.mentions r) := by
  induction nodes with
  | nil => rfl
  | cons n rest ih => rw [Node.anyMentions, ih, List.any_cons]

/-- A node that answers as the filter `v` reads. -/
structure NodeReads (inAny : Bool) (node : Node) (v : Value) : Prop where
  matches_eq : ∀ (doc : Doc) (element : Option Value), element.isSome = inAny →
    node.matches doc element = readFilter doc element v
  mentions_eq : ∀ r, node.mentions r = mentions r inAny v
  matchAll : node.isMatchAll = true ↔ v = .object []

/-- Operators that answer as the operator object with members `ops` reads. -/
def OpsRead (compiled : List Op) (ops : List (String × Value)) : Prop :=
  ∀ doc value, compiled.all (Op.matches doc value) = readOps doc value ops

/-- A clause whose node answers as its own key and operand read. -/
structure Clause.Reads (ft : FloatText) (inAny : Bool) (c : Clause) : Prop where
  json : c.operandJson = String.ofList (canonical ft c.operand)
  matches_eq : ∀ (doc : Doc) (element : Option Value), element.isSome = inAny →
    c.node.matches doc element = readClause doc element (c.key, c.operand)
  mentions_eq : ∀ r, c.node.mentions r = clauseMentions r inAny (c.key, c.operand)

def Clause.pair (c : Clause) : String × Value := (c.key, c.operand)

/-! ### Keys -/

theorem clauseKey_or {key : String} (h : clauseKey key = .or) : key = "$or" := by
  unfold clauseKey at h
  split at h
  · cases h
  · split at h
    · assumption
    · split at h
      · cases h
      · split at h
        · cases h
        · split at h <;> cases h

theorem clauseKey_not {key : String} (h : clauseKey key = .not) : key = "$not" := by
  unfold clauseKey at h
  split at h
  · cases h
  · split at h
    · cases h
    · split at h
      · assumption
      · split at h
        · cases h
        · split at h <;> cases h

theorem clauseKey_and_iff {key : String} : clauseKey key = .and ↔ key = "$and" := by
  constructor
  · intro h
    unfold clauseKey at h
    split at h
    · assumption
    · split at h
      · cases h
      · split at h
        · cases h
        · split at h
          · cases h
          · split at h <;> cases h
  · rintro rfl
    rfl

theorem isOperatorObject_and (items : List Value) :
    isOperatorObject [("$and", .array items)] = false := by
  simp [isOperatorObject, isValueOperator, opName]

/-- The form of an `$any` operand is that of its normal form. -/
theorem isOperatorObject_normal (ft : FloatText) (map : List (String × Value)) :
    isOperatorObject ((normalOps ft map).insertionSort keyLe) = isOperatorObject map := by
  have hperm := List.perm_insertionSort keyLe (normalOps ft map)
  have hempty : ((normalOps ft map).insertionSort keyLe).isEmpty = map.isEmpty := by
    rw [Bool.eq_iff_iff, List.isEmpty_iff_length_eq_zero, List.isEmpty_iff_length_eq_zero,
      hperm.length_eq, normalOps_eq, List.length_map]
  unfold isOperatorObject
  rw [hempty, hperm.all_eq, normalOps_eq, List.all_map]
  rfl

/-- A filter in normal form is never an operator object. -/
theorem isOperatorObject_wrap (clauses : List (String × Value)) :
    ∃ map, wrap clauses = .object map ∧ isOperatorObject map = false := by
  cases clauses with
  | nil => exact ⟨[], rfl, rfl⟩
  | cons c rest => exact ⟨_, rfl, isOperatorObject_and _⟩

/-! ### Sorting and wrapping -/

section Finish
variable (ft : FloatText)

/-- The clauses `finish` keeps. -/
def finishKept (clauses : List Clause) : List Clause :=
  (clauses.insertionSort Clause.le).destutter (fun a b => ¬ Clause.same a b)

variable {clauses : List Clause}

theorem mem_finishKept {c : Clause} (h : c ∈ finishKept clauses) :
    c ∈ clauses :=
  (List.mem_insertionSort _).mp ((List.destutter_sublist _ _).subset h)

/-- `finish` keeps, of the pairs, what the normal form keeps. -/
theorem finishKept_pairs {inAny : Bool} (h : ∀ c ∈ clauses, c.Reads ft inAny) :
    (finishKept clauses).map Clause.pair = kept ft (clauses.map Clause.pair) := by
  have hsort : (clauses.insertionSort Clause.le).map Clause.pair =
      (clauses.map Clause.pair).insertionSort (pairLe ft) := by
    refine List.map_insertionSort _ _ _ _ fun a ha b hb => ?_
    unfold Clause.le Clause.order pairLe pairOrder
    rw [(h a ha).json, (h b hb).json]
    rfl
  unfold finishKept kept
  rw [← hsort]
  refine List.map_destutter fun a ha b hb => ?_
  rw [List.mem_insertionSort] at ha hb
  unfold Clause.same pairSame
  rw [(h a ha).json, (h b hb).json]
  rfl

theorem finish_eq (clauses : List Clause) : finish clauses =
    (.and ((finishKept clauses).map (·.node)), wrap ((finishKept clauses).map Clause.pair)) := by
  unfold finish finishKept
  cases (clauses.insertionSort Clause.le).destutter fun a b => ¬ Clause.same a b with
  | nil => rfl
  | cons c rest =>
    simp only [List.map_cons, wrap, Clause.pair, List.map_map]
    rfl

theorem readFilter_wrap (doc : Doc) (element : Option Value) (clauses : List (String × Value)) :
    readFilter doc element (wrap clauses) = clauses.all (readClause doc element) := by
  cases clauses with
  | nil => rfl
  | cons c rest =>
    show readFilter doc element (.object [("$and", .array ((c :: rest).map fun c => .object [c]))]) = _
    rw [readFilter_object, List.all_cons, List.all_nil, Bool.and_true]
    show ((c :: rest).map fun c => Json.object [c]).all (readFilter doc element) = _
    rw [List.all_map]
    exact all_congr_mem fun c _ => by simp [readFilter_object]

theorem mentions_wrap (r : Root) (inAny : Bool) (clauses : List (String × Value)) :
    mentions r inAny (wrap clauses) = clauses.any (clauseMentions r inAny) := by
  cases clauses with
  | nil => rfl
  | cons c rest =>
    show mentions r inAny (.object [("$and", .array ((c :: rest).map fun c => .object [c]))]) = _
    rw [mentions_object, List.any_cons, List.any_nil, Bool.or_false]
    show ((c :: rest).map fun c => Json.object [c]).any (mentions r inAny) = _
    rw [List.any_map]
    exact any_congr_mem fun c _ => by simp [mentions_object]

/-- A finished filter is in normal form and reads as its normal form. -/
theorem finish_correct {inAny : Bool} (h : ∀ c ∈ clauses, c.Reads ft inAny) :
    (finish clauses).2 = wrap (kept ft (clauses.map Clause.pair)) ∧
      NodeReads inAny (finish clauses).1 (finish clauses).2 := by
  have hkept : ∀ c ∈ finishKept clauses, c.Reads ft inAny := fun c hc => h c (mem_finishKept hc)
  rw [finish_eq]
  refine ⟨by rw [finishKept_pairs ft h], ?_, ?_, ?_⟩
  · intro doc element helement
    rw [readFilter_wrap, Node.matches, Node.allMatch_eq, List.all_map, List.all_map]
    exact all_congr_mem fun c hc => (hkept c hc).matches_eq doc element helement
  · intro r
    rw [mentions_wrap, Node.mentions, Node.anyMentions_eq, List.any_map, List.any_map]
    exact any_congr_mem fun c hc => (hkept c hc).mentions_eq r
  · cases finishKept clauses with
    | nil => simp [Node.isMatchAll, wrap]
    | cons c rest => simp [Node.isMatchAll, wrap]

end Finish

/-! ### Operators -/

section Levels
variable (ft : FloatText)

/-- What the parsers at a filter with `n` depths left promise. -/
structure LevelOk (n : Nat) (L : Level) : Prop where
  filter : ∀ src inAny s, Spends id maxNodes s (L.parseFilter src inAny)
    (filterOk n inAny src = true) (filterNodes src)
    fun r _ => r.2 = normal ft src ∧ NodeReads inAny r.1 r.2
  operators : ∀ path map s, Spends id maxNodes s (L.parseOperators path map)
    (n ≠ 0 ∧ opsOk n map = true) (opsNodes map)
    fun r _ => r.2 = .object ((normalOps ft map).insertionSort keyLe) ∧
      OpsRead r.1 ((normalOps ft map).insertionSort keyLe)

theorem take_spends (s : Nat) : Spends id maxNodes s take True 1 (fun _ _ => True) :=
  Spends.spend (m := (· + 1)) rfl trivial

theorem take_then {α : Type} {p : Parse α} {ok : Prop} {cost : Nat} {Q : α → Nat → Prop} (s : Nat)
    (hp : ∀ s', Spends id maxNodes s' p ok cost Q) :
    Spends id maxNodes s (take >>= fun _ => p) ok (1 + cost) Q :=
  (Spends.bind (take_spends s) fun _ s' _ => hp s').mono (by simp) (fun _ => rfl) (fun _ _ _ h => h)

/-- The operator an operand compiles to reads as its normal form. -/
def OpReads (o : String × Value) (r : Op × Value) : Prop :=
  (o.1, r.2) = normalOp ft o ∧ ∀ doc value, r.1.matches doc value = readOp doc value (normalOp ft o)

variable {ft}

/-- What is read in the order written is sorted by name at the end. -/
theorem sorted_operators {map : List (String × Value)} {parsed : List (String × Op × Value)}
    (hparsed : List.Forall₂ (fun m e => e.1 = m.1 ∧ OpReads ft m e.2) map parsed) :
    Json.object ((parsed.insertionSort keyLe).map fun e => (e.1, e.2.2)) =
        .object ((normalOps ft map).insertionSort keyLe) ∧
      OpsRead ((parsed.insertionSort keyLe).map (·.2.1)) ((normalOps ft map).insertionSort keyLe) := by
  have hpairs : parsed.map (fun e => (e.1, e.2.2)) = normalOps ft map := by
    rw [normalOps_eq]
    induction hparsed with
    | nil => rfl
    | cons h _ ih => rw [List.map_cons, List.map_cons, ih, h.1, h.2.1]
  have hreads : ∀ e ∈ parsed, ∀ doc value,
      e.2.1.matches doc value = readOp doc value (e.1, e.2.2) := by
    clear hpairs
    induction hparsed with
    | nil => intro e he; cases he
    | cons h _ ih =>
      intro e he
      rcases List.mem_cons.mp he with rfl | he
      · intro doc value
        rw [h.2.2 doc value, h.1, h.2.1]
      · exact ih e he
  have hsorted : (parsed.insertionSort keyLe).map (fun e => (e.1, e.2.2)) =
      (normalOps ft map).insertionSort keyLe := by
    rw [← hpairs]
    exact List.map_insertionSort _ _ _ _ fun a _ b _ => Iff.rfl
  refine ⟨congrArg _ hsorted, fun doc value => ?_⟩
  rw [← hsorted, readOps_eq, List.all_map, List.all_map]
  exact all_congr_mem fun e he => hreads e ((List.mem_insertionSort _).mp he) doc value

variable {n : Nat} {next : Level} (hnext : LevelOk ft n next)

include hnext

theorem parseAny_spends (path name : String) (operand : Value) (s : Nat) (hn : opName name = .any) :
    Spends id maxNodes s (parseAny next path operand) (opOk (n + 1) (name, operand) = true)
      (opNodes (name, operand) - 1) (fun r _ => OpReads ft (name, operand) r) := by
  cases operand with
  | object map =>
    simp only [parseAny, opOk, opNodes, hn, if_true, Nat.add_sub_cancel, Nat.add_sub_cancel_left]
    by_cases hops : isOperatorObject map = true
    · have hif : (!map.isEmpty && map.all fun m => isValueOperator m.1) = true := hops
      rw [if_pos hif, if_pos hops, if_pos hops]
      refine ((hnext.operators path map s).map fun r s' hr => ?_).mono
        (by simp) (fun _ => rfl) (fun _ _ _ h => h)
      refine ⟨by simp [normalOp, hn, hops, hr.1], fun doc value => ?_⟩
      simp only [normalOp, hn, hops, if_true, readOp, Op.matches]
      rcases value with _ | value
      · rfl
      · cases value with
        | array items =>
          refine any_congr_mem fun item _ => ?_
          rw [AnyOperand.matches, Op.allMatch_eq, hr.2 doc (some item), readAny,
            isOperatorObject_normal, if_pos hops]
        | _ => rfl
    · have hif : ¬ (!map.isEmpty && map.all fun m => isValueOperator m.1) = true := hops
      rw [if_neg hif, if_neg hops, if_neg hops]
      refine (hnext.filter (.object map) true s).map fun r s' hr => ?_
      refine ⟨by simp [normalOp, hn, hops, hr.1], fun doc value => ?_⟩
      obtain ⟨map', hwrap, hform⟩ := isOperatorObject_wrap (kept ft (clausesOf ft (.object map)))
      have hnormal : normal ft (.object map) = .object map' := hwrap
      simp only [normalOp, hn, hops, if_true, readOp, Op.matches, hnormal]
      rcases value with _ | value
      · rfl
      · cases value with
        | array items =>
          refine any_congr_mem fun item _ => ?_
          rw [AnyOperand.matches, hr.2.matches_eq doc (some item) rfl, hr.1, hnormal, readAny, hform]
          rfl
        | _ => rfl
  | _ =>
    simp only [parseAny, opOk, hn, if_true]
    exact Spends.refuse (by simp)

theorem parseOperator_spends (path : String) (o : String × Value) (s : Nat) :
    Spends id maxNodes s (parseOperator ft next path o.1 o.2) (opOk (n + 1) o = true)
      (opNodes o - 1) (fun r _ => OpReads ft o r) := by
  obtain ⟨name, operand⟩ := o
  unfold parseOperator
  split_ifs with hn
  · exact parseAny_spends hnext path name operand s hn
  · refine (Spends.guard (parseLeaf_isOk ft path name operand) fun op hop =>
      Spends.pure (Q := fun r _ => OpReads ft (name, operand) r) ?_).mono
        (by simp [opOk, hn]) (fun _ => by simp [opNodes, hn]) (fun _ _ _ h => h)
    obtain ⟨_, hreads⟩ := parseLeaf_ok ft path name hop
    exact ⟨by simp [normalOp, hn], fun doc value => by simp [normalOp, readOp, hn, hreads]⟩

theorem parseOperators_spends (path : String) (map : List (String × Value)) (s : Nat) :
    Spends id maxNodes s (parseOperators ft next path map) (opsOk (n + 1) map = true) (opsNodes map)
      fun r _ => r.2 = .object ((normalOps ft map).insertionSort keyLe) ∧
        OpsRead r.1 ((normalOps ft map).insertionSort keyLe) := by
  have hitem : ∀ m ∈ map, ∀ s, Spends id maxNodes s
      (do take; let r ← parseOperator ft next path m.1 m.2; pure (m.1, r))
      (opOk (n + 1) m = true) (opNodes m)
      (fun (e : String × Op × Value) _ => e.1 = m.1 ∧ OpReads ft m e.2) := by
    intro m _ s
    refine (take_then s fun s' =>
      (parseOperator_spends hnext path m s').map fun r _ hr => ⟨rfl, hr⟩).mono
        Iff.rfl (fun _ => by simp only [opNodes]; omega) (fun _ _ _ h => h)
  refine ((Spends.mapM_forall₂ _ map s hitem).map fun parsed s' hparsed => ?_).mono
    (by simp [opsOk_eq]) (fun _ => by simp [opsNodes_eq]) (fun _ _ _ h => h)
  exact sorted_operators hparsed

/-! ### Clauses -/

omit hnext in
theorem filterList_ok (name : String) (value : Value) (items : List Value) :
    filterList name value = .ok items ↔ value = .array items ∧ items.isEmpty = false := by
  cases value with
  | array items' =>
    cases items' with
    | nil =>
      simp only [filterList, Json.array.injEq, reduceCtorEq, false_iff]
      rintro ⟨rfl, h⟩
      cases h
    | cons j rest =>
      simp only [filterList, Except.ok.injEq, Json.array.injEq]
      constructor
      · rintro rfl
        exact ⟨rfl, rfl⟩
      · exact fun h => h.1
  | _ => simp [filterList]

omit hnext in
theorem operatorMap_ok (path : String) (value : Value) (map : List (String × Value)) :
    operatorMap path value = .ok map ↔
      value = .object map ∧ map.isEmpty = false ∧ map.all (fun m => startsWithDollar m.1) = true := by
  cases value with
  | object map' =>
    simp only [operatorMap]
    split_ifs with hempty hdollar
    · simp only [Json.object.injEq, false_iff]
      rintro ⟨rfl, h, _⟩
      rw [hempty] at h
      cases h
    · simp only [Json.object.injEq, false_iff]
      rintro ⟨rfl, _, h⟩
      rw [List.any_eq_not_all_not] at hdollar
      simp [h] at hdollar
    · rw [List.any_eq_not_all_not] at hdollar
      simp only [Except.ok.injEq, Json.object.injEq]
      constructor
      · rintro rfl
        exact ⟨rfl, by simpa using hempty, by simpa using hdollar⟩
      · exact fun h => h.1
  | _ => simp [operatorMap]

omit hnext in
theorem pathValue_eq {key : String} {inAny : Bool} {path : Path} (h : Path.parse key inAny = .ok path)
    (doc : Doc) (element : Option Value) (he : element.isSome = inAny) :
    pathValue doc element key = path.resolve doc element := by
  rw [pathValue, he, h]

omit hnext in
/-- The filters of an `$or`, each with its normal form and a node that reads as it. -/
theorem or_correct {inAny : Bool} {items : List Value} {parsed : List (Node × Value)}
    (h : List.Forall₂ (fun i r => r.2 = normal ft i ∧ NodeReads inAny r.1 r.2) items parsed) :
    parsed.map (·.2) = items.map (normal ft) ∧ ∀ r ∈ parsed, NodeReads inAny r.1 r.2 := by
  induction h with
  | nil => exact ⟨rfl, fun r hr => by cases hr⟩
  | cons hr _ ih =>
    refine ⟨by rw [List.map_cons, List.map_cons, ih.1, hr.1], ?_⟩
    intro r hmem
    rcases List.mem_cons.mp hmem with rfl | hmem
    · exact hr.2
    · exact ih.2 r hmem

theorem parseClause_or (inAny : Bool) (value : Value) (s : Nat) :
    Spends id maxNodes s (parseClause ft next inAny "$or" value)
      (clauseOk (n + 1) inAny ("$or", value) = true) (clauseNodes ("$or", value))
      (fun c _ => c.pair = normalClause ft ("$or", value) ∧ c.Reads ft inAny) := by
  have hk : clauseKey "$or" = .or := rfl
  simp only [parseClause, hk]
  cases hlist : filterList "$or" value with
  | error e =>
    have hno : ¬ clauseOk (n + 1) inAny ("$or", value) = true := by
      intro h
      cases value with
      | array items =>
        simp only [clauseOk, hk, Bool.and_eq_true, Bool.not_eq_true'] at h
        rw [(filterList_ok _ _ _).mpr ⟨rfl, h.1⟩] at hlist
        cases hlist
      | _ => simp [clauseOk, hk] at h
    exact (take_then s fun s' => (Spends.guard_error rfl hno : Spends id maxNodes s' _ _ 0 _)).mono
      Iff.rfl (fun hok => absurd hok hno) (fun _ _ _ h => h)
  | ok items =>
    obtain ⟨rfl, hne⟩ := (filterList_ok _ _ _).mp hlist
    refine (take_then s fun s' => Spends.guard_ok rfl ((Spends.mapM_forall₂ _ items s'
      fun i _ s'' => hnext.filter i inAny s'').map fun parsed _ hparsed => ?_)).mono
        (by simp [clauseOk, hk, hne]) (fun _ => by simp [clauseNodes, hk]) fun _ _ _ h => h
    obtain ⟨hnormal, hreads⟩ := or_correct hparsed
    refine ⟨?_, rfl, ?_, ?_⟩
    · simp [Clause.pair, Clause.new, normalClause, hk, hnormal]
    · intro doc element he
      simp only [Clause.new, Node.matches, Node.anyMatch_eq, readClause, hk, List.any_map]
      exact any_congr_mem fun r hr => (hreads r hr).matches_eq doc element he
    · intro r
      simp only [Clause.new, Node.mentions, Node.anyMentions_eq, clauseMentions, hk, List.any_map]
      exact any_congr_mem fun e he => (hreads e he).mentions_eq r

theorem parseClause_not (inAny : Bool) (value : Value) (s : Nat) :
    Spends id maxNodes s (parseClause ft next inAny "$not" value)
      (clauseOk (n + 1) inAny ("$not", value) = true) (clauseNodes ("$not", value))
      (fun c _ => c.pair = normalClause ft ("$not", value) ∧ c.Reads ft inAny) := by
  have hk : clauseKey "$not" = .not := rfl
  simp only [parseClause, hk]
  cases value with
  | object map =>
    refine (take_then s fun s' => (hnext.filter (.object map) inAny s').map fun r _ hr => ?_).mono
      (by simp [clauseOk, hk]) (fun _ => by simp [clauseNodes, hk]) fun _ _ _ h => h
    refine ⟨?_, rfl, ?_, ?_⟩
    · simp [Clause.pair, Clause.new, normalClause, hk, hr.1]
    · intro doc element he
      simp only [Clause.new, Node.matches, readClause, hk]
      rw [hr.2.matches_eq doc element he]
    · intro x
      simp only [Clause.new, Node.mentions, clauseMentions, hk]
      exact hr.2.mentions_eq x
  | _ =>
    exact (take_then s fun s' => (Spends.refuse (by simp [clauseOk, hk, filterOk]) :
      Spends id maxNodes s' _ _ 0 _)).mono Iff.rfl (by simp [clauseOk, hk, filterOk]) (fun _ _ _ h => h)

theorem parseClause_path (inAny : Bool) (key : String) (value : Value) (s : Nat)
    (hk : clauseKey key = .path) :
    Spends id maxNodes s (parseClause ft next inAny key value)
      (clauseOk (n + 1) inAny (key, value) = true) (clauseNodes (key, value))
      (fun c _ => c.pair = normalClause ft (key, value) ∧ c.Reads ft inAny) := by
  simp only [parseClause, hk]
  cases hpath : Path.parse key inAny with
  | error e =>
    refine Spends.guard_error rfl ?_
    cases value <;> simp [clauseOk, hk, pathOk, hpath, Except.isOk, Except.toBool]
  | ok path =>
    refine Spends.guard_ok rfl ?_
    have hpathOk : pathOk key inAny = true := by simp [pathOk, hpath, Except.isOk, Except.toBool]
    cases hmap : operatorMap key value with
    | error e =>
      refine Spends.guard_error rfl ?_
      intro h
      cases value with
      | object map =>
        simp only [clauseOk, hk, hpathOk, Bool.true_and, Bool.and_eq_true, Bool.not_eq_true'] at h
        rw [(operatorMap_ok key _ map).mpr ⟨rfl, h.1.1, h.1.2⟩] at hmap
        cases hmap
      | _ => simp [clauseOk, hk] at h
    | ok map =>
      obtain ⟨rfl, hne, hdollar⟩ := (operatorMap_ok _ _ _).mp hmap
      refine Spends.guard_ok rfl (((parseOperators_spends hnext key map s).map fun r _ hr => ?_).mono
        (by simp only [clauseOk, hk, hpathOk, hne, hdollar, Bool.not_false, Bool.true_and])
        (fun _ => by simp [clauseNodes, hk]) fun _ _ _ h => h)
      refine ⟨?_, rfl, ?_, ?_⟩
      · simp [Clause.pair, Clause.new, normalClause, hk, hr.1]
      · intro doc element he
        simp only [Clause.new, Node.matches, Op.allMatch_eq, readClause, hk, hr.1]
        rw [pathValue_eq hpath doc element he, hr.2]
      · intro x
        simp [Clause.new, Node.mentions, clauseMentions, hk, hpath, Except.toOption]

theorem parseClause_spends (inAny : Bool) (c : String × Value) (s : Nat) (hand : isAnd c = false) :
    Spends id maxNodes s (parseClause ft next inAny c.1 c.2)
      (clauseOk (n + 1) inAny c = true) (clauseNodes c)
      (fun r _ => r.pair = normalClause ft c ∧ r.Reads ft inAny) := by
  obtain ⟨key, value⟩ := c
  cases hk : clauseKey key with
  | and => simp [isAnd, hk] at hand
  | or =>
    obtain rfl := clauseKey_or hk
    exact parseClause_or hnext inAny value s
  | not =>
    obtain rfl := clauseKey_not hk
    exact parseClause_not hnext inAny value s
  | path => exact parseClause_path hnext inAny key value s hk
  | operator =>
    simp only [parseClause, hk]
    exact Spends.refuse (by simp [clauseOk, hk])
  | unknown =>
    simp only [parseClause, hk]
    exact Spends.refuse (by simp [clauseOk, hk])

/-! ### The stack of `$and` -/

omit hnext in
/-- What one pass of the loop checks of a key itself; the filters of `$and` are left
to later passes. -/
def entryOk (n : Nat) (inAny : Bool) (c : String × Value) : Bool :=
  match clauseKey c.1, c.2 with
  | .and, .array items => !items.isEmpty
  | _, _ => clauseOk n inAny c

def entryNodes (c : String × Value) : Nat := if isAnd c then 0 else clauseNodes c

omit hnext in
theorem clausesOk_split (n : Nat) (inAny : Bool) (map : List (String × Value)) :
    map.all (clauseOk n inAny) =
      (map.all (entryOk n inAny) && (andItems map).all (filterOk n inAny)) := by
  induction map with
  | nil => rfl
  | cons m rest ih =>
    obtain ⟨key, value⟩ := m
    rw [List.all_cons, List.all_cons, ih]
    cases hk : clauseKey key <;> cases value <;>
      simp [clauseOk, entryOk, andItems, hk, Bool.and_assoc, Bool.and_left_comm, Bool.and_comm]

omit hnext in
theorem clauseNodes_split (map : List (String × Value)) :
    (map.map clauseNodes).sum =
      (map.map entryNodes).sum + ((andItems map).map filterNodes).sum := by
  induction map with
  | nil => rfl
  | cons m rest ih =>
    obtain ⟨key, value⟩ := m
    rw [List.map_cons, List.sum_cons, ih, List.map_cons, List.sum_cons]
    cases hk : clauseKey key <;> cases value <;>
      simp [clauseNodes, entryNodes, isAnd, andItems, hk] <;> omega

omit hnext in
theorem countItems_andItems {ν : Type} (map : List (String × Json String ν)) :
    Json.countItems (andItems map) ≤ Json.countMembers map := by
  induction map with
  | nil => simp [andItems, Json.countItems]
  | cons m rest ih =>
    obtain ⟨key, value⟩ := m
    cases hk : clauseKey key <;> cases value <;>
      simp only [andItems, hk, Json.countItems_append, Json.countMembers, Json.countItems, Json.count] <;>
      omega

/-- What the entries of one object leave on the stack and add to the clauses. -/
theorem collectEntries_spends (inAny : Bool) (entries : List (String × Value)) (pending : List Value)
    (out : List Clause) (s : Nat) :
    Spends id maxNodes s (collectEntries ft next inAny entries pending out)
      (entries.all (entryOk (n + 1) inAny) = true) (entries.map entryNodes).sum
      (fun r _ => r.1 = andItems entries ++ pending ∧ ∃ cs, r.2 = out ++ cs ∧
        cs.map Clause.pair = (entries.filter (fun m => !isAnd m)).map (normalClause ft) ∧
        ∀ c ∈ cs, c.Reads ft inAny) := by
  induction entries generalizing pending out s with
  | nil =>
    refine (Spends.pure ?_).mono (by simp) (by simp) (fun _ _ _ h => h)
    exact ⟨rfl, [], by simp, rfl, by simp⟩
  | cons m rest ih =>
    obtain ⟨key, value⟩ := m
    rw [collectEntries]
    by_cases hkey : key = "$and"
    · have hk := clauseKey_and_iff.mpr hkey
      rw [if_pos hkey]
      cases hlist : filterList "$and" value with
      | error e =>
        refine Spends.guard_error rfl ?_
        intro h
        rw [List.all_cons, Bool.and_eq_true] at h
        cases value with
        | array items =>
          have hne : items.isEmpty = false := by simpa [entryOk, hk] using h.1
          rw [(filterList_ok _ _ _).mpr ⟨rfl, hne⟩] at hlist
          cases hlist
        | _ => simp [entryOk, clauseOk, hk] at h
      | ok items =>
        obtain ⟨rfl, hne⟩ := (filterList_ok _ _ _).mp hlist
        refine Spends.guard_ok rfl ((ih (items ++ pending) out s).mono
          (by simp [entryOk, hk, hne]) (fun _ => by simp [entryNodes, isAnd, hk]) ?_)
        rintro - r - ⟨hpending, hout⟩
        exact ⟨by simp [hpending, andItems, hk], by simpa [isAnd, hk] using hout⟩
    · have hk : clauseKey key ≠ .and := fun h => hkey (clauseKey_and_iff.mp h)
      have hand : isAnd (key, value) = false := by simp [isAnd, hk]
      rw [if_neg hkey]
      refine (Spends.bind (parseClause_spends hnext inAny (key, value) s hand) fun c s' hc =>
        (ih pending (out ++ [c]) s').mono Iff.rfl (fun _ => rfl) ?_).mono
          (by simp [entryOk, hk]) (fun _ => by simp [entryNodes, hand]) (fun _ _ _ h => h)
      rintro - r - ⟨hpending, cs, hout, hpairs, hreads⟩
      refine ⟨by simp [hpending, andItems, hk], c :: cs, by simp [hout], ?_, ?_⟩
      · simp [hand, hc.1, hpairs]
      · intro d hd
        rcases List.mem_cons.mp hd with rfl | hd
        · exact hc.2
        · exact hreads d hd

/-- The loop: what is collected and what is still on the stack together are the
clauses of the filter. -/
theorem collectClauses_spends (inAny : Bool) (passes : Nat) (pending : List Value)
    (out : List Clause) (s : Nat) (hpasses : Json.countItems pending ≤ passes) :
    Spends id maxNodes s (collectClauses ft next inAny passes pending out)
      (pending.all (filterOk (n + 1) inAny) = true) (pending.map filterNodes).sum
      (fun r _ => ∃ cs, r = out ++ cs ∧ cs.map Clause.pair = pending.flatMap (clausesOf ft) ∧
        ∀ c ∈ cs, c.Reads ft inAny) := by
  induction passes generalizing pending out s with
  | zero =>
    cases pending with
    | nil =>
      refine (Spends.pure ?_).mono (by simp) (by simp) (fun _ _ _ h => h)
      exact ⟨[], by simp, rfl, by simp⟩
    | cons src rest =>
      have := Json.count_pos src
      rw [Json.countItems] at hpasses
      omega
  | succ passes ih =>
    cases pending with
    | nil =>
      refine (Spends.pure ?_).mono (by simp) (by simp) (fun _ _ _ h => h)
      exact ⟨[], by simp, rfl, by simp⟩
    | cons src rest =>
      cases src with
      | object map =>
        have hcount : Json.countItems (andItems map ++ rest) ≤ passes := by
          have := countItems_andItems map
          rw [Json.countItems, Json.count] at hpasses
          rw [Json.countItems_append]
          omega
        refine (Spends.bind (collectEntries_spends hnext inAny map rest out s) (fun r s' hr => by
          obtain ⟨pending, out'⟩ := r
          obtain ⟨rfl, cs, rfl, hpairs, hreads⟩ := hr
          refine (ih _ _ s' hcount).mono Iff.rfl (fun _ => rfl) ?_
          rintro - r - ⟨cs', rfl, hpairs', hreads'⟩
          refine ⟨cs ++ cs', List.append_assoc .., ?_, ?_⟩
          · rw [List.map_append, hpairs, hpairs', List.flatMap_cons, List.flatMap_append,
              clausesOf_object, List.append_assoc]
          · intro c hc
            rcases List.mem_append.mp hc with hc | hc
            · exact hreads c hc
            · exact hreads' c hc)).mono ?_ ?_ (fun _ _ _ h => h)
        · rw [List.all_cons, filterOk_object, clausesOk_split, List.all_append]
          simp [and_assoc]
        · intro _
          rw [List.map_append, List.sum_append, List.map_cons, List.sum_cons, filterNodes_object,
            clauseNodes_split, Nat.add_assoc]
      | _ => exact Spends.refuse (by simp [filterOk])

theorem parseFilter_spends (src : Value) (inAny : Bool) (s : Nat) :
    Spends id maxNodes s (parseFilter ft next src inAny) (filterOk (n + 1) inAny src = true)
      (filterNodes src) (fun r _ => r.2 = normal ft src ∧ NodeReads inAny r.1 r.2) := by
  refine ((collectClauses_spends hnext inAny src.count [src] [] s
    (by simp [Json.countItems])).map fun cs _ hcs => ?_).mono (by simp) (by simp) (fun _ _ _ h => h)
  obtain ⟨cs, rfl, hpairs, hreads⟩ := hcs
  obtain ⟨hnormal, hnode⟩ := finish_correct ft hreads
  refine ⟨?_, hnode⟩
  rw [hnormal, hpairs, List.flatMap_singleton]
  rfl

end Levels

/-- Every level keeps its promise. -/
theorem level_correct (ft : FloatText) (n : Nat) : LevelOk ft n (level ft n) := by
  induction n with
  | zero =>
    refine ⟨fun src inAny s => Spends.refuse ?_, fun path map s => Spends.refuse (by simp)⟩
    cases src <;> simp [filterOk]
  | succ n ih =>
    exact ⟨fun src inAny s => parseFilter_spends ih src inAny s, fun path map s =>
      (parseOperators_spends ih path map s).mono (by simp) (fun _ => rfl) (fun _ _ _ h => h)⟩

end Iii.Filter
