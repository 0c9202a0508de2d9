import Iii.Filter.Correct
import Iii.Sdk.Compile

/-! The closure compiler against the language.

A JSON value is taken as its text spells it (`Src`): the engine reads it one way, the
host language another. A host is `Faithful` when its operators on single values, its
paths and its array elements answer as the language does on the value the engine
reads. Then the compiler accepts exactly the filters of the language
(`level_agrees`, by induction on the depths left), and the closures it returns match
what they read, whatever order the members are walked in. -/
namespace Iii.Sdk
open Filter Lib

/-! ### One JSON value, two readers -/

/-- A JSON value as its text spells it. -/
abbrev Src := Json String NumText

/-- The value the engine reads. -/
def engine (f : Src) : Value := f.map id NumText.serde

def engineMembers (map : List (String × Src)) : List (String × Value) :=
  map.map fun m => (m.1, engine m.2)

theorem engine_array (items : List Src) : engine (.array items) = .array (items.map engine) := by
  rw [engine, Json.map, Json.mapItems_eq]
  rfl

theorem engine_object (map : List (String × Src)) :
    engine (.object map) = .object (engineMembers map) := by
  rw [engine, Json.map, Json.mapMembers_eq]
  rfl

theorem get?_engineMembers (map : List (String × Src)) (key : String) :
    Json.get? (engineMembers map) key = (Json.get? map key).map engine :=
  Json.get?_map Function.injective_id engine map key

/-- Objects are equal when they have one size and every member has an equal partner. -/
theorem jsonEq_object (ds ls : List (String × Src)) :
    jsonEq (engine (.object ds)) (engine (.object ls)) = true ↔ ds.length = ls.length ∧
      ∀ d ∈ ds, ∃ l, Json.get? ls d.1 = some l ∧ jsonEq (engine d.2) (engine l) = true := by
  rw [engine_object, engine_object, jsonEq_object_iff]
  simp only [get?_engineMembers]
  simp [engineMembers, -List.mem_map, List.forall_mem_map]

/-- Among distinct keys the partners may be looked for from either side. -/
theorem jsonEq_object_right {ds ls : List (String × Src)} (hd : (ds.map (·.1)).Nodup)
    (hl : (ls.map (·.1)).Nodup) :
    jsonEq (engine (.object ds)) (engine (.object ls)) = true ↔ ds.length = ls.length ∧
      ∀ l ∈ ls, ∃ d, Json.get? ds l.1 = some d ∧ jsonEq (engine d) (engine l.2) = true := by
  rw [jsonEq_object]
  refine and_congr_right fun hlen => ⟨fun h => ?_, fun h => ?_⟩
  · exact Json.partner_symm hd hl hlen (R := fun d l => jsonEq (engine d) (engine l) = true) h
  · exact Json.partner_symm hl hd hlen.symm (R := fun l d => jsonEq (engine d) (engine l) = true) h

theorem jsonEq_array (ds ls : List Src) :
    jsonEq (engine (.array ds)) (engine (.array ls)) = true ↔
      List.Forall₂ (fun d l => jsonEq (engine d) (engine l) = true) ds ls := by
  rw [engine_array, engine_array, jsonEq_array_iff, List.forall₂_map_left_iff, List.forall₂_map_right_iff]

/-- What is asked of a document: keys are distinct and no array is longer than any
machine can hold. -/
structure Plain (d : Src) : Prop where
  unique : d.Unique
  short : d.Short (10 ^ 15)

theorem Plain.item {items : List Src} (h : Plain (.array items)) : ∀ i ∈ items, Plain i := fun i hi =>
  ⟨Json.unique_array.mp h.unique i hi, (Json.short_array.mp h.short).2 i hi⟩

theorem Plain.member {map : List (String × Src)} (h : Plain (.object map)) : ∀ m ∈ map, Plain m.2 :=
  fun m hm => ⟨(Json.unique_object.mp h.unique).2 m hm, Json.short_object.mp h.short m hm⟩

/-- Each root of a document, absent or a value. -/
abbrev SrcDoc := Root → Option Src

def engineDoc (sd : SrcDoc) : Doc :=
  ⟨(sd .input).map engine, (sd .output).map engine, (sd .error).map engine, (sd .caller).map engine,
    (sd .metadata).map engine⟩

theorem root_engineDoc (sd : SrcDoc) (element : Option Value) {r : Root} (hr : r ≠ .element) :
    (engineDoc sd).root element r = (sd r).map engine := by
  cases r with
  | element => exact absurd rfl hr
  | _ => rfl

/-- The roots of a JSON document. -/
def rootsOf (d : Src) : SrcDoc := fun r =>
  match d with
  | .object map => Json.get? map (rootName r)
  | _ => none

theorem engineDoc_rootsOf (d : Src) : engineDoc (rootsOf d) = Doc.fromValue (engine d) := by
  cases d with
  | object map =>
    rw [engine_object]
    simp only [Doc.fromValue, get?_engineMembers]
    rfl
  | array items =>
    rw [engine_array]
    rfl
  | _ => rfl

section Host
variable {ν : Type} (C : UnitCode) (num : NumText → ν)

/-- The value the host reads. -/
def hostValue (f : Src) : Json Units ν := f.map C.text num

def hostMembers (map : List (String × Src)) : List (Units × Json Units ν) :=
  map.map fun m => (C.text m.1, hostValue C num m.2)

theorem hostValue_array (items : List Src) :
    hostValue C num (.array items) = .array (items.map (hostValue C num)) := by
  rw [hostValue, Json.map, Json.mapItems_eq]
  rfl

theorem hostValue_object (map : List (String × Src)) :
    hostValue C num (.object map) = .object (hostMembers C num map) := by
  rw [hostValue, Json.map, Json.mapMembers_eq]
  rfl

mutual
theorem count_hostValue : ∀ f : Src, (hostValue C num f).count = f.count
  | .null => rfl
  | .bool _ => rfl
  | .number _ => rfl
  | .string _ => rfl
  | .array items => by
    rw [hostValue_array, Json.count, Json.count, countItems_hostValue items]
  | .object map => by
    rw [hostValue_object, Json.count, Json.count, countMembers_hostValue map]
theorem countItems_hostValue : ∀ items : List Src,
    Json.countItems (items.map (hostValue C num)) = Json.countItems items
  | [] => rfl
  | j :: rest => by
    rw [List.map_cons, Json.countItems, Json.countItems, count_hostValue j, countItems_hostValue rest]
theorem countMembers_hostValue : ∀ map : List (String × Src),
    Json.countMembers (hostMembers C num map) = Json.countMembers map
  | [] => rfl
  | m :: rest => by
    have ih := countMembers_hostValue rest
    rw [hostMembers] at ih ⊢
    rw [List.map_cons, Json.countMembers, Json.countMembers, count_hostValue m.2, ih]
end

/-- The values of a filter are the same in either reading. -/
theorem count_engine (f : Src) : (engine f).count = f.count := by
  induction f using Json.ind with
  | array items ih =>
    rw [engine_array, Json.count, Json.count, Json.countItems_eq_sum, Json.countItems_eq_sum,
      List.map_map]
    exact congrArg _ (congrArg _ (List.map_congr_left ih))
  | object map ih =>
    rw [engine_object, Json.count, Json.count, Json.countMembers_eq_sum, Json.countMembers_eq_sum,
      engineMembers, List.map_map]
    exact congrArg _ (congrArg _ (List.map_congr_left ih))
  | _ => rfl

/-! ### Names -/

theorem opName_text (name : String) : opName C (C.text name) = Filter.opName name := by
  simp only [opName, Filter.opName, C.text_inj]

theorem isValueOperator_text (name : String) :
    isValueOperator C (C.text name) = Filter.isValueOperator name := by
  cases hname : Filter.opName name <;>
    simp only [isValueOperator, Filter.isValueOperator, opName_text, hname]

theorem startsWithDollar_text (key : String) :
    startsWithDollar (C.text key) = Filter.startsWithDollar key := by
  unfold startsWithDollar Filter.startsWithDollar UnitCode.text
  cases key.toList with
  | nil => rfl
  | cons c rest =>
    rw [C.encode_cons, List.head?_cons, decide_eq_decide]
    rcases C.word_cases c with ⟨hw, -⟩ | ⟨u, w, hw, hu, -, hc⟩
    · rw [hw, List.singleton_append, List.head?_cons, Option.some.injEq, Option.some.injEq]
      exact ⟨fun h => Char.toNat_inj.mp h, fun h => by rw [h]; rfl⟩
    · rw [hw, List.cons_append, List.head?_cons, Option.some.injEq, Option.some.injEq]
      constructor
      · intro h
        omega
      · intro h
        rw [h] at hc
        exact absurd hc (by decide)

theorem clauseKey_text (key : String) : clauseKey C (C.text key) = Filter.clauseKey key := by
  simp only [clauseKey, Filter.clauseKey, C.text_inj, isValueOperator_text, startsWithDollar_text]

end Host

theorem object_of_filterOk {n : Nat} {inAny : Bool} {f : Src}
    (h : filterOk n inAny (engine f) = true) : ∃ map, f = .object map := by
  cases f with
  | object map => exact ⟨map, rfl⟩
  | array items =>
    rw [engine_array] at h
    cases h
  | _ => cases h

/-! ### `$and` -/

theorem andItems_engine (map : List (String × Src)) :
    andItems (engineMembers map) = (andItems map).map engine := by
  induction map with
  | nil => rfl
  | cons m rest ih =>
    obtain ⟨key, value⟩ := m
    show andItems ((key, engine value) :: engineMembers rest) = _
    cases hk : Filter.clauseKey key with
    | and =>
      cases value with
      | array items => simp [andItems, hk, engine_array, ih]
      | object map => simp [andItems, hk, engine_object, ih]
      | _ => simp [andItems, hk, engine, Json.map, ih]
    | _ => simp [andItems, hk, ih]

/-- The members of an object other than `$and`. -/
def ownMembers {ν : Type} (map : List (String × Json String ν)) : List (String × Json String ν) :=
  map.filter fun m => !isAnd m

theorem ownMembers_engine (map : List (String × Src)) :
    ownMembers (engineMembers map) = engineMembers (ownMembers map) := by
  unfold ownMembers engineMembers
  rw [List.filter_map]
  rfl

/-- A permutation of a mapped list is the map of a permutation. -/
theorem exists_perm_of_map {α β : Type} {f : α → β} {l : List α} {l' : List β}
    (h : l'.Perm (l.map f)) : ∃ l'' : List α, l''.Perm l ∧ l' = l''.map f := by
  have hrel : List.Forall₂ (fun b a => b = f a) (l.map f) l := by
    rw [List.forall₂_map_left_iff]
    exact List.forall₂_same.mpr fun _ _ => rfl
  obtain ⟨w, hw, hperm⟩ := List.perm_comp_forall₂ h hrel
  refine ⟨w, hperm, ?_⟩
  clear hperm hrel h
  induction hw with
  | nil => rfl
  | cons h _ ih => rw [List.map_cons, ← h, ← ih]

/-- The clauses one member of a filter contributes. -/
def clauseCount (ft : FloatText) (m : String × Value) : Nat :=
  if isAnd m then ((andItems [m]).map fun i => (clausesOf ft i).length).sum else 1

theorem length_clausesOf (ft : FloatText) (map : List (String × Value)) :
    (clausesOf ft (.object map)).length = (map.map (clauseCount ft)).sum := by
  rw [clausesOf_object, List.length_append, List.length_map, List.length_flatMap]
  induction map with
  | nil => rfl
  | cons m rest ih =>
    obtain ⟨key, value⟩ := m
    rw [List.map_cons, List.sum_cons, ← ih, clauseCount, List.filter_cons]
    cases hk : Filter.clauseKey key with
    | and =>
      cases value with
      | array items =>
        simp [isAnd, andItems, hk]
        omega
      | _ => simp [isAnd, andItems, hk]
    | _ =>
      simp [isAnd, andItems, hk]
      omega

/-- No reading of a filter object sees the order of its members. -/
theorem object_perm (ft : FloatText) {a b : List (String × Value)} (h : a.Perm b) :
    (∀ n inAny, filterOk n inAny (.object a) = filterOk n inAny (.object b)) ∧
    filterNodes (.object a) = filterNodes (.object b) ∧
    (∀ doc element, readFilter doc element (.object a) = readFilter doc element (.object b)) ∧
    (∀ r inAny, mentions r inAny (.object a) = mentions r inAny (.object b)) ∧
    (clausesOf ft (.object a)).length = (clausesOf ft (.object b)).length := by
  refine ⟨fun n inAny => ?_, ?_, fun doc element => ?_, fun r inAny => ?_, ?_⟩
  · rw [filterOk_object, filterOk_object, h.all_eq]
  · rw [filterNodes_object, filterNodes_object, (h.map _).sum_eq]
  · rw [readFilter_object, readFilter_object, h.all_eq]
  · rw [mentions_object, mentions_object, h.any_eq]
  · rw [length_clausesOf, length_clausesOf, (h.map _).sum_eq]

/-! ### Faithful hosts -/

variable {ν Doc El View : Type}

/-- What the compiler relies on in a host. `good` are the filter values it is used
on, `Holds el v` says that an element stands for the value `v`, `Sees w v` that a
view stands for `v` or for an absent value, and `Reads d sd` that a document stands
for the roots `sd`. -/
structure Faithful (H : Host ν Doc El View) (num : NumText → ν) (good : Src → Prop)
    (Holds : El → Src → Prop) (Sees : View → Option Src → Prop) (Reads : Doc → SrcDoc → Prop) :
    Prop where
  good_array : ∀ {items}, good (.array items) → ∀ i ∈ items, good i
  good_object : ∀ {map}, good (.object map) → (map.map (·.1)).Nodup ∧ ∀ m ∈ map, good m.2
  members_perm : ∀ obj, (obj.map (·.1)).Nodup → (H.members obj).Perm obj
  leaf_ok : ∀ path name operand, good operand → Filter.opName name ≠ .any →
    ((∃ op, H.parseLeaf path (H.code.text name) (hostValue H.code num operand) = .ok op) ↔
      leafOk name (engine operand) = true)
  leaf_reads : ∀ {path name operand op}, good operand →
    H.parseLeaf path (H.code.text name) (hostValue H.code num operand) = .ok op →
    ∀ {w v} d, Sees w v → op w d = readLeaf name (engine operand) (v.map engine)
  items_array : ∀ {w items}, Sees w (some (.array items)) →
    ∃ els, H.items w = some els ∧ List.Forall₂ Holds els items
  items_other : ∀ {w v}, Sees w v → (∀ items, v ≠ some (.array items)) → H.items w = none
  sees_view : ∀ {el v}, Holds el v → Sees (H.view el) (some v)
  resolve_outside : ∀ {raw p}, Filter.Path.parse raw false = .ok p → ∀ {d sd} el, Reads d sd →
    ∃ v, Sees (H.resolve (hostPath H.code H.paths p) d el) v ∧
      v.map engine = p.resolve (engineDoc sd) none
  resolve_inside : ∀ {raw p}, Filter.Path.parse raw true = .ok p → ∀ {d sd el item}, Reads d sd →
    Holds el item → ∃ v, Sees (H.resolve (hostPath H.code H.paths p) d el) v ∧
      v.map engine = p.resolve (engineDoc sd) (some (engine item))

section Agree
variable {H : Host ν Doc El View} {num : NumText → ν} {good : Src → Prop}
variable {Holds : El → Src → Prop} {Sees : View → Option Src → Prop} {Reads : Doc → SrcDoc → Prop}

/-- What a closure is given for `@`: an element inside `$any`, anything outside. -/
def AtElement (Holds : El → Src → Prop) (inAny : Bool) (el : El) (element : Option Value) : Prop :=
  if inAny then ∃ item, Holds el item ∧ element = some (engine item) else element = none

theorem AtElement.isSome {inAny : Bool} {el : El} {element : Option Value}
    (h : AtElement Holds inAny el element) : element.isSome = inAny := by
  cases inAny with
  | false => rw [show element = none from h]; rfl
  | true =>
    obtain ⟨item, -, rfl⟩ := h
    rfl

theorem Faithful.resolve (hH : Faithful H num good Holds Sees Reads) {raw : String} {inAny : Bool}
    {p : Filter.Path} (hp : Filter.Path.parse raw inAny = .ok p) {d : Doc} {sd : SrcDoc}
    (hd : Reads d sd) {el : El} {element : Option Value} (he : AtElement Holds inAny el element) :
    ∃ v, Sees (H.resolve (hostPath H.code H.paths p) d el) v ∧
      v.map engine = pathValue (engineDoc sd) element raw := by
  rw [pathValue_eq hp _ _ he.isSome]
  cases inAny with
  | false =>
    rw [show element = none from he]
    exact hH.resolve_outside hp el hd
  | true =>
    obtain ⟨item, hitem, rfl⟩ := he
    exact hH.resolve_inside hp hd hitem

/-- Closures that together answer as the clauses `read`. -/
def ClausesRead (Holds : El → Src → Prop) (Reads : Doc → SrcDoc → Prop) (inAny : Bool)
    (clauses : List (Pred Doc El)) (read : Filter.Doc → Option Value → Bool) : Prop :=
  ∀ d sd el element, Reads d sd → AtElement Holds inAny el element →
    (clauses.all fun c => c d el) = read (engineDoc sd) element

/-- Operators that together answer as an operator object. -/
def OpsRead (Sees : View → Option Src → Prop) (Reads : Doc → SrcDoc → Prop)
    (ops : List (OpFn Doc View)) (map : List (String × Value)) : Prop :=
  ∀ d sd w v, Reads d sd → Sees w v →
    (ops.all fun op => op w d) = readOps (engineDoc sd) (v.map engine) map

/-- The roots added while reading something that mentions `m`. -/
def RootsAdded (before after : Roots) (m : Root → Bool) : Prop :=
  ∀ r, r ≠ .element → after.has r = (before.has r || m r)

theorem RootsAdded.refl {roots : Roots} {m : Root → Bool} (h : ∀ r, r ≠ .element → m r = false) :
    RootsAdded roots roots m := by
  intro r hr
  rw [h r hr, Bool.or_false]

theorem RootsAdded.trans {a b c : Roots} {m m' : Root → Bool} (h : RootsAdded a b m)
    (h' : RootsAdded b c m') : RootsAdded a c fun r => m r || m' r := by
  intro r hr
  rw [h' r hr, h r hr, Bool.or_assoc]

theorem RootsAdded.congr {a b : Roots} {m m' : Root → Bool} (h : RootsAdded a b m)
    (hm : ∀ r, m r = m' r) : RootsAdded a b m' := by
  intro r hr
  rw [h r hr, hm r]

variable (ft : FloatText)

/-- What the parsers of the host promise at a filter with `n` depths left. -/
structure LevelAgrees (H : Host ν Doc El View) (num : NumText → ν) (good : Src → Prop)
    (Holds : El → Src → Prop) (Sees : View → Option Src → Prop) (Reads : Doc → SrcDoc → Prop)
    (n : Nat) (L : Level ν Doc El View) : Prop where
  collect : ∀ src inAny s, good src →
    Spends Budget.nodes maxNodes s (L.collect (hostValue H.code num src) inAny)
      (filterOk n inAny (engine src) = true) (filterNodes (engine src))
      fun cs s' => ClausesRead Holds Reads inAny cs (fun doc element => readFilter doc element (engine src)) ∧
        cs.length = (clausesOf ft (engine src)).length ∧
        RootsAdded s.roots s'.roots fun r => mentions r inAny (engine src)
  operators : ∀ path map s, good (.object map) →
    Spends Budget.nodes maxNodes s (L.parseOperators path (hostMembers H.code num map))
      (n ≠ 0 ∧ opsOk n (engineMembers map) = true) (opsNodes (engineMembers map))
      fun ops s' => OpsRead Sees Reads ops (engineMembers map) ∧ s'.roots = s.roots

theorem take_spends (C : UnitCode) (s : Budget) :
    Spends Budget.nodes maxNodes s (take C) True 1 fun _ s' => s'.roots = s.roots :=
  Spends.spend (m := fun t : Budget => { t with nodes := t.nodes + 1 }) rfl rfl

theorem take_then {α : Type} (C : UnitCode) {p : Parse α} {ok : Prop} {cost : Nat}
    {Q : α → Budget → Prop} (s : Budget)
    (hp : ∀ s', s'.roots = s.roots → Spends Budget.nodes maxNodes s' p ok cost Q) :
    Spends Budget.nodes maxNodes s (take C >>= fun _ => p) ok (1 + cost) Q :=
  (Spends.bind (take_spends C s) fun _ s' h => hp s' h).mono (by simp) (fun _ => rfl) (fun _ _ _ h => h)

/-- `@` paths add no root: what is read between saving and restoring leaves none. -/
theorem restoreRoots_spends {α β : Type} {p : Parse α} {g : α → β} {ok : Prop} {cost : Nat}
    {Q : α → Budget → Prop} {s : Budget} (hp : Spends Budget.nodes maxNodes s p ok cost Q) :
    Spends Budget.nodes maxNodes s (do
        let saved ← get
        let a ← p
        modify fun t => {t with roots := saved.roots}
        pure (g a)) ok cost
      fun b s' => s'.roots = s.roots ∧ ∃ a t, Q a t ∧ b = g a := by
  intro hs
  obtain ⟨hsucc, herr⟩ := hp hs
  constructor
  · intro hok hfit
    obtain ⟨a, t, hrun, hused, hQ⟩ := hsucc hok hfit
    refine ⟨g a, {t with roots := s.roots}, ?_, hused, rfl, a, t, hQ, rfl⟩
    show Except.bind (p.run s) _ = _
    rw [hrun]
    rfl
  · intro hn
    obtain ⟨e, hrun⟩ := herr hn
    refine ⟨e, ?_⟩
    show Except.bind (p.run s) _ = _
    rw [hrun]
    rfl

theorem addRoot_then {α : Type} {p : Parse α} {ok : Prop} {cost : Nat} {Q : α → Budget → Prop}
    {s : Budget} (root : Root)
    (hp : Spends Budget.nodes maxNodes {s with roots := s.roots.add root} p ok cost Q) :
    Spends Budget.nodes maxNodes s (addRoot root >>= fun _ => p) ok cost Q := hp

/-! ### Operators -/

/-- An operator that answers as a member of an operator object. -/
def OpReads (Sees : View → Option Src → Prop) (Reads : Doc → SrcDoc → Prop)
    (o : String × Value) (op : OpFn Doc View) : Prop :=
  ∀ d sd w v, Reads d sd → Sees w v → op w d = readOp (engineDoc sd) (v.map engine) o

variable {n : Nat} {next : Level ν Doc El View}
variable (hH : Faithful H num good Holds Sees Reads)
variable (hnext : LevelAgrees ft H num good Holds Sees Reads n next)

include hnext in
theorem parseFilter_spends (src : Src) (inAny : Bool) (s : Budget) (hg : good src) :
    Spends Budget.nodes maxNodes s (parseFilter next (hostValue H.code num src) inAny)
      (filterOk n inAny (engine src) = true) (filterNodes (engine src))
      fun p s' => (∀ d sd el element, Reads d sd → AtElement Holds inAny el element →
          p d el = readFilter (engineDoc sd) element (engine src)) ∧
        RootsAdded s.roots s'.roots fun r => mentions r inAny (engine src) := by
  refine (hnext.collect src inAny s hg).map fun cs s' hcs => ⟨?_, hcs.2.2⟩
  intro d sd el element hd he
  rw [andPred_eq]
  exact hcs.1 d sd el element hd he

include hH in
/-- `$any` asks its operand of each element. -/
theorem any_reads {name : String} (hn : Filter.opName name = .any) {map : List (String × Value)}
    {test : Doc → El → Bool}
    (htest : ∀ d sd el item, Reads d sd → Holds el item →
      test d el = readAny (engineDoc sd) (engine item) map) :
    OpReads Sees Reads (name, .object map) fun w d =>
      match H.items w with
      | some els => els.any (test d)
      | none => false := by
  intro d sd w v hd hw
  by_cases harray : ∃ items, v = some (.array items)
  · obtain ⟨items, rfl⟩ := harray
    obtain ⟨els, hels, hrel⟩ := hH.items_array hw
    simp only [hels, Option.map_some, engine_array, readOp, hn, if_true, List.any_map]
    exact any_forall₂ hrel fun el item h => htest d sd el item hd h
  · have hnone := hH.items_other hw fun items h => harray ⟨items, h⟩
    simp only [hnone]
    rcases v with _ | v
    · simp [readOp, hn]
    · cases v with
      | array items => exact absurd ⟨items, rfl⟩ harray
      | object map => simp [engine_object, readOp, hn]
      | _ => simp [engine, Json.map, readOp, hn]

theorem isOperatorObject_host (map : List (String × Src)) :
    (!(hostMembers H.code num map).isEmpty &&
      (hostMembers H.code num map).all fun m => isValueOperator H.code m.1) =
      isOperatorObject (engineMembers map) := by
  unfold isOperatorObject hostMembers engineMembers
  rw [List.isEmpty_map, List.isEmpty_map, List.all_map, List.all_map]
  simp [Function.comp_def, isValueOperator_text]

include hH in
/-- The members in the order walked are members of the source in some order. -/
theorem exists_members {map : List (String × Src)} (hg : good (.object map)) :
    ∃ entries : List (String × Src), entries.Perm map ∧ H.members (hostMembers H.code num map) =
      entries.map fun m => (H.code.text m.1, hostValue H.code num m.2) := by
  have hnodup : ((hostMembers H.code num map).map (·.1)).Nodup := by
    have hkeys : (hostMembers H.code num map).map (·.1) = (map.map (·.1)).map H.code.text := by
      rw [hostMembers, List.map_map, List.map_map]
      rfl
    rw [hkeys]
    exact (hH.good_object hg).1.map H.code.text_injective
  exact exists_perm_of_map (hH.members_perm _ hnodup)

include hH hnext in
theorem parseAny_spends (path : Units) (name : String) (operand : Src) (s : Budget)
    (hg : good operand) (hn : Filter.opName name = .any) :
    Spends Budget.nodes maxNodes s (parseAny H next path (hostValue H.code num operand))
      (opOk (n + 1) (name, engine operand) = true) (opNodes (name, engine operand) - 1)
      fun op s' => OpReads Sees Reads (name, engine operand) op ∧ s'.roots = s.roots := by
  cases operand with
  | object map =>
    rw [engine_object, hostValue_object]
    simp only [parseAny, isOperatorObject_host]
    by_cases hops : isOperatorObject (engineMembers map) = true
    · rw [if_pos hops]
      refine ((hnext.operators path map s hg).map fun ops s' hr => ?_).mono
        (by simp [opOk, hn, hops]) (fun _ => by simp [opNodes, hn, hops]) (fun _ _ _ h => h)
      refine ⟨any_reads hH hn fun d sd el item hd hel => ?_, hr.2⟩
      rw [readAny, if_pos hops]
      exact hr.1 d sd _ _ hd (hH.sees_view hel)
    · rw [if_neg hops, ← hostValue_object]
      refine (restoreRoots_spends (parseFilter_spends ft hnext (.object map) true s hg)).mono
        (by simp [opOk, hn, hops, engine_object])
        (fun _ => by simp [opNodes, hn, hops, engine_object]) ?_
      intro _ op s' hr
      obtain ⟨hroots, node, t, hnode, rfl⟩ := hr
      refine ⟨any_reads hH hn fun d sd el item hd hel => ?_, hroots⟩
      rw [readAny, if_neg hops, hnode.1 d sd el _ hd ⟨item, hel, rfl⟩, engine_object]
  | array items =>
    rw [engine_array, hostValue_array]
    exact Spends.refuse (by simp [opOk, hn])
  | _ => exact Spends.refuse (by simp [opOk, hn, engine, Json.map])

include hH hnext in
theorem parseOperator_spends (path : Units) (name : String) (operand : Src) (s : Budget)
    (hg : good operand) :
    Spends Budget.nodes maxNodes s
      (parseOperator H next path (H.code.text name) (hostValue H.code num operand))
      (opOk (n + 1) (name, engine operand) = true) (opNodes (name, engine operand) - 1)
      fun op s' => OpReads Sees Reads (name, engine operand) op ∧ s'.roots = s.roots := by
  unfold parseOperator
  rw [opName_text]
  split_ifs with hn
  · exact parseAny_spends ft hH hnext path name operand s hg hn
  · have hok := hH.leaf_ok path name operand hg hn
    cases hleaf : H.parseLeaf path (H.code.text name) (hostValue H.code num operand) with
    | error e =>
      refine Spends.refuse ?_
      have hno : ¬ leafOk name (engine operand) = true := by
        rw [← hok, hleaf]
        simp
      simpa [opOk, hn] using hno
    | ok op =>
      have hyes : leafOk name (engine operand) = true := hok.mp ⟨op, hleaf⟩
      refine (Spends.pure (Q := fun op s' => OpReads Sees Reads (name, engine operand) op ∧
        s'.roots = s.roots) ⟨?_, rfl⟩).mono (by simp [opOk, hn, hyes])
          (fun _ => by simp [opNodes, hn]) (fun _ _ _ h => h)
      intro d sd w v hd hw
      rw [hH.leaf_reads hg hleaf d hw]
      simp [readOp, hn]

include hH hnext in
theorem parseOperators_spends (path : Units) (map : List (String × Src)) (s : Budget)
    (hg : good (.object map)) :
    Spends Budget.nodes maxNodes s (parseOperators H next path (hostMembers H.code num map))
      (opsOk (n + 1) (engineMembers map) = true) (opsNodes (engineMembers map))
      fun ops s' => OpsRead Sees Reads ops (engineMembers map) ∧ s'.roots = s.roots := by
  obtain ⟨entries, hperm, hentries⟩ := exists_members hH hg
  have hstep : ∀ m ∈ entries, ∀ done ops s', List.Forall₂ (fun m op =>
      OpReads Sees Reads (m.1, engine m.2) op) done ops ∧ s'.roots = s.roots →
      Spends Budget.nodes maxNodes s'
        (do take H.code; parseOperator H next path (H.code.text m.1) (hostValue H.code num m.2))
        (opOk (n + 1) (m.1, engine m.2) = true) (opNodes (m.1, engine m.2))
        fun op t => List.Forall₂ (fun m op => OpReads Sees Reads (m.1, engine m.2) op) (done ++ [m])
          (ops ++ [op]) ∧ t.roots = s.roots := by
    intro m hm done ops s' hI
    refine (take_then H.code s' fun t ht => (parseOperator_spends ft hH hnext path m.1 m.2 t
      ((hH.good_object hg).2 m (hperm.mem_iff.mp hm))).mono Iff.rfl (fun _ => rfl) ?_).mono
        Iff.rfl (fun _ => ?_) (fun _ _ _ h => h)
    · intro _ op u h
      exact ⟨List.rel_append hI.1 (.cons h.1 .nil), (h.2.trans ht).trans hI.2⟩
    · simp only [opNodes]
      omega
  unfold parseOperators
  rw [hentries, List.mapM_map]
  refine (Spends.mapM (fun done ops s' => List.Forall₂ (fun m op =>
      OpReads Sees Reads (m.1, engine m.2) op) done ops ∧ s'.roots = s.roots) entries [] [] s
      hstep ⟨.nil, rfl⟩).mono ?_ ?_ ?_
  · rw [opsOk_eq, engineMembers, List.all_map, List.all_eq_true]
    exact ⟨fun h m hm => h m (hperm.mem_iff.mpr hm), fun h m hm => h m (hperm.mem_iff.mp hm)⟩
  · intro _
    rw [opsNodes_eq, engineMembers, List.map_map]
    exact (hperm.map _).sum_eq
  · intro _ ops s' h
    refine ⟨?_, h.2⟩
    intro d sd w v hd hw
    have hall : (ops.all fun op => op w d) =
        entries.all fun m => readOp (engineDoc sd) (v.map engine) (m.1, engine m.2) := by
      have hrel : List.Forall₂ _ entries ops := h.1
      exact (all_forall₂ hrel fun m op hop => (hop d sd w v hd hw).symm).symm
    rw [hall, readOps_eq, engineMembers, List.all_map, hperm.all_eq]
    rfl

/-! ### Clauses -/

/-- A closure that answers as a filter or as one clause of it. -/
def PredReads (Holds : El → Src → Prop) (Reads : Doc → SrcDoc → Prop) (inAny : Bool)
    (p : Pred Doc El) (read : Filter.Doc → Option Value → Bool) : Prop :=
  ∀ d sd el element, Reads d sd → AtElement Holds inAny el element →
    p d el = read (engineDoc sd) element

/-- A list of filters is a non-empty array. -/
theorem filterList_cases (C : UnitCode) (num : NumText → ν) (name : Units) (value : Src) :
    (∃ items, value = .array items ∧ items.isEmpty = false ∧
        filterList C name (hostValue C num value) = .ok (items.map (hostValue C num))) ∨
      (∃ e, filterList C name (hostValue C num value) = .error e) ∧
        ∀ items, engine value = .array items → items.isEmpty = true := by
  cases value with
  | array items =>
    rw [hostValue_array]
    cases items with
    | nil =>
      refine .inr ⟨⟨_, rfl⟩, ?_⟩
      intro items h
      rw [engine_array] at h
      cases h
      rfl
    | cons i rest => exact .inl ⟨i :: rest, rfl, rfl, rfl⟩
  | object map =>
    refine .inr ⟨⟨_, by rw [hostValue_object]; rfl⟩, ?_⟩
    intro items h
    rw [engine_object] at h
    cases h
  | _ => exact .inr ⟨⟨_, rfl⟩, fun items h => by cases h⟩

include hnext in
theorem children_spends (inAny : Bool) (items : List Src) (s : Budget) (hg : ∀ i ∈ items, good i) :
    Spends Budget.nodes maxNodes s
      ((items.map (hostValue H.code num)).mapM fun item => parseFilter next item inAny)
      (∀ i ∈ items, filterOk n inAny (engine i) = true) (items.map fun i => filterNodes (engine i)).sum
      fun children s' =>
        List.Forall₂ (fun i c => PredReads Holds Reads inAny c
          fun doc element => readFilter doc element (engine i)) items children ∧
        RootsAdded s.roots s'.roots fun r => items.any fun i => mentions r inAny (engine i) := by
  rw [List.mapM_map]
  have hstep : ∀ i ∈ items, ∀ done children s',
      (List.Forall₂ (fun i c => PredReads Holds Reads inAny c
          fun doc element => readFilter doc element (engine i)) done children ∧
        RootsAdded s.roots s'.roots fun r => done.any fun i => mentions r inAny (engine i)) →
      Spends Budget.nodes maxNodes s' (parseFilter next (hostValue H.code num i) inAny)
        (filterOk n inAny (engine i) = true) (filterNodes (engine i))
        fun c t => List.Forall₂ (fun i c => PredReads Holds Reads inAny c
            fun doc element => readFilter doc element (engine i)) (done ++ [i]) (children ++ [c]) ∧
          RootsAdded s.roots t.roots fun r => (done ++ [i]).any fun i => mentions r inAny (engine i) := by
    intro i hi done children s' hI
    refine (parseFilter_spends ft hnext i inAny s' (hg i hi)).mono Iff.rfl (fun _ => rfl) ?_
    intro _ c t hc
    refine ⟨List.rel_append hI.1 (.cons hc.1 .nil), ?_⟩
    exact (hI.2.trans hc.2).congr fun r => by simp
  exact (Spends.mapM _ items [] [] s hstep ⟨.nil, .refl (by simp)⟩).mono Iff.rfl (fun _ => rfl)
    fun _ children s' h => h

include hnext hH in
theorem parseClause_or (inAny : Bool) (value : Src) (s : Budget) (hg : good value) :
    Spends Budget.nodes maxNodes s
      (parseClause H next inAny (H.code.text "$or") (hostValue H.code num value))
      (clauseOk (n + 1) inAny ("$or", engine value) = true) (clauseNodes ("$or", engine value))
      fun c s' => PredReads Holds Reads inAny c
          (fun doc element => readClause doc element ("$or", engine value)) ∧
        RootsAdded s.roots s'.roots fun r => clauseMentions r inAny ("$or", engine value) := by
  have hk : Filter.clauseKey "$or" = .or := rfl
  simp only [parseClause, clauseKey_text, hk]
  rcases filterList_cases H.code num (H.code.text "$or") value with
    ⟨items, rfl, hne, hlist⟩ | ⟨⟨e, hlist⟩, hno⟩
  · refine (take_then H.code s fun s' hs' => Spends.guard_ok hlist
      ((children_spends ft hnext inAny items s' (hH.good_array hg)).map (R := fun c t =>
        PredReads Holds Reads inAny c (fun doc element => readClause doc element ("$or", engine (.array items))) ∧
          RootsAdded s.roots t.roots fun r => clauseMentions r inAny ("$or", engine (.array items)))
        fun children t hch => ?_)).mono ?_ ?_ (fun _ _ _ h => h)
    · refine ⟨?_, ?_⟩
      · intro d sd el element hd he
        simp only [orPred, readClause, hk, engine_array, List.any_map]
        exact (any_forall₂ hch.1 fun i c hc => (hc d sd el element hd he).symm).symm
      · rw [← hs']
        exact hch.2.congr fun r => by simp [clauseMentions, hk, engine_array, Function.comp_def]
    · simp [clauseOk, hk, hne, engine_array]
    · intro _
      simp [clauseNodes, hk, engine_array, Function.comp_def]
  · have hno : ¬ clauseOk (n + 1) inAny ("$or", engine value) = true := by
      intro h
      cases hv : engine value with
      | array items =>
        rw [hv] at h
        simp only [clauseOk, hk, Bool.and_eq_true, Bool.not_eq_true'] at h
        rw [hno items hv] at h
        cases h.1
      | _ => simp [clauseOk, hk, hv] at h
    exact (take_then H.code s fun s' _ => (Spends.guard_error hlist hno :
      Spends Budget.nodes maxNodes s' _ _ 0 _)).mono Iff.rfl (fun hok => absurd hok hno) (fun _ _ _ h => h)

include hnext in
theorem parseClause_not (inAny : Bool) (value : Src) (s : Budget) (hg : good value) :
    Spends Budget.nodes maxNodes s
      (parseClause H next inAny (H.code.text "$not") (hostValue H.code num value))
      (clauseOk (n + 1) inAny ("$not", engine value) = true) (clauseNodes ("$not", engine value))
      fun c s' => PredReads Holds Reads inAny c
          (fun doc element => readClause doc element ("$not", engine value)) ∧
        RootsAdded s.roots s'.roots fun r => clauseMentions r inAny ("$not", engine value) := by
  have hk : Filter.clauseKey "$not" = .not := rfl
  simp only [parseClause, clauseKey_text, hk]
  cases value with
  | object map =>
    rw [hostValue_object]
    simp only
    rw [← hostValue_object]
    refine (take_then H.code s fun s' hs' => (parseFilter_spends ft hnext (.object map) inAny s' hg).map
      (R := fun c t => PredReads Holds Reads inAny c
          (fun doc element => readClause doc element ("$not", engine (.object map))) ∧
        RootsAdded s.roots t.roots fun r => clauseMentions r inAny ("$not", engine (.object map)))
      fun child t hchild => ⟨?_, ?_⟩).mono (by simp [clauseOk, hk])
        (fun _ => by simp [clauseNodes, hk]) (fun _ _ _ h => h)
    · intro d sd el element hd he
      simp only [readClause, hk]
      rw [hchild.1 d sd el element hd he]
    · rw [← hs']
      exact hchild.2
  | array items =>
    rw [hostValue_array]
    exact (take_then H.code s fun s' _ => (Spends.refuse (by simp [clauseOk, hk, engine_array, filterOk]) :
      Spends Budget.nodes maxNodes s' _ _ 0 _)).mono Iff.rfl
        (by simp [clauseOk, hk, engine_array, filterOk]) (fun _ _ _ h => h)
  | _ =>
    exact (take_then H.code s fun s' _ => (Spends.refuse (by simp [clauseOk, hk, engine, Json.map, filterOk]) :
      Spends Budget.nodes maxNodes s' _ _ 0 _)).mono Iff.rfl
        (by simp [clauseOk, hk, engine, Json.map, filterOk]) (fun _ _ _ h => h)

/-- The checks in front of the operators of a path. -/
theorem operatorMap_cases (C : UnitCode) (num : NumText → ν) (path : Units) (value : Src) :
    (∃ map, value = .object map ∧ operatorMap C path (hostValue C num value) = .ok (hostMembers C num map) ∧
        (engineMembers map).isEmpty = false ∧
        (engineMembers map).all (fun m => Filter.startsWithDollar m.1) = true) ∨
      (∃ e, operatorMap C path (hostValue C num value) = .error e) ∧
        ∀ map, engine value = .object map →
          ¬ (map.isEmpty = false ∧ map.all (fun m => Filter.startsWithDollar m.1) = true) := by
  cases value with
  | object map =>
    have hempty : (hostMembers C num map).isEmpty = (engineMembers map).isEmpty := by
      rw [hostMembers, engineMembers, List.isEmpty_map, List.isEmpty_map]
    have hdollar : ((hostMembers C num map).any fun m => !startsWithDollar m.1) =
        !(engineMembers map).all fun m => Filter.startsWithDollar m.1 := by
      rw [hostMembers, engineMembers, List.any_map, List.all_map, List.not_all_eq_any_not]
      simp [Function.comp_def, startsWithDollar_text]
    rw [hostValue_object, engine_object]
    simp only [operatorMap, hempty, hdollar]
    by_cases he : (engineMembers map).isEmpty = true
    · refine .inr ⟨⟨_, by rw [if_pos he]⟩, ?_⟩
      intro map' h
      cases h
      simp [he]
    · rw [if_neg he]
      cases hd : (engineMembers map).all fun m => Filter.startsWithDollar m.1 with
      | true => exact .inl ⟨map, rfl, by simp, by simpa using he, hd⟩
      | false =>
        refine .inr ⟨⟨shorthand C path, by simp⟩, ?_⟩
        intro map' h
        cases h
        simp [hd]
  | array items =>
    refine .inr ⟨⟨_, by rw [hostValue_array]; rfl⟩, ?_⟩
    intro map h
    rw [engine_array] at h
    cases h
  | _ => exact .inr ⟨⟨_, rfl⟩, fun map h => by cases h⟩

include hnext hH in
theorem parseClause_path (inAny : Bool) (key : String) (value : Src) (s : Budget) (hg : good value)
    (hk : Filter.clauseKey key = .path) :
    Spends Budget.nodes maxNodes s
      (parseClause H next inAny (H.code.text key) (hostValue H.code num value))
      (clauseOk (n + 1) inAny (key, engine value) = true) (clauseNodes (key, engine value))
      fun c s' => PredReads Holds Reads inAny c
          (fun doc element => readClause doc element (key, engine value)) ∧
        RootsAdded s.roots s'.roots fun r => clauseMentions r inAny (key, engine value) := by
  obtain ⟨hparse, herr⟩ := parsePath_text H.code H.paths key inAny
  simp only [parseClause, clauseKey_text, hk]
  cases hpath : Filter.Path.parse key inAny with
  | error e =>
    obtain ⟨e', he'⟩ := herr e hpath
    refine Spends.guard_error he' ?_
    cases engine value <;> simp [clauseOk, hk, pathOk, hpath, Except.isOk, Except.toBool]
  | ok path =>
    refine Spends.guard_ok (hparse path hpath) (addRoot_then _ ?_)
    have hpathOk : pathOk key inAny = true := by simp [pathOk, hpath, Except.isOk, Except.toBool]
    rcases operatorMap_cases H.code num (H.code.text key) value with
      ⟨map, rfl, hmap, hne, hdollar⟩ | ⟨⟨e, hmap⟩, hno⟩
    · refine Spends.guard_ok hmap (((parseOperators_spends ft hH hnext (H.code.text key) map _ hg).map
        fun ops t hops => ?_).mono ?_ ?_ (fun _ _ _ h => h))
      · refine ⟨?_, ?_⟩
        · intro d sd el element hd he
          obtain ⟨v, hsees, hv⟩ := hH.resolve hpath hd he
          rw [pathClause_eq, hops.1 d sd _ v hd hsees, hv]
          simp only [readClause, hk, engine_object]
        · intro r hr
          have hm : clauseMentions r inAny (key, engine (.object map)) = true ↔ path.root = r := by
            simp [clauseMentions, hk, hpath, Except.toOption]
          rw [hops.2, Roots.has_add _ _ _ hr, Bool.eq_iff_iff, Bool.or_eq_true, Bool.or_eq_true, hm,
            decide_eq_true_iff]
          rfl
      · simp only [clauseOk, hk, engine_object, hpathOk, hne, hdollar, Bool.not_false, Bool.true_and]
      · intro _
        simp [clauseNodes, hk, engine_object]
    · refine Spends.guard_error hmap ?_
      intro h
      cases hv : engine value with
      | object map =>
        rw [hv] at h
        simp only [clauseOk, hk, hpathOk, Bool.true_and, Bool.and_eq_true, Bool.not_eq_true'] at h
        exact hno map hv h.1
      | _ => simp [clauseOk, hk, hv] at h

include hnext hH in
theorem parseClause_spends (inAny : Bool) (m : String × Src) (s : Budget) (hg : good m.2)
    (hand : isAnd m = false) :
    Spends Budget.nodes maxNodes s
      (parseClause H next inAny (H.code.text m.1) (hostValue H.code num m.2))
      (clauseOk (n + 1) inAny (m.1, engine m.2) = true) (clauseNodes (m.1, engine m.2))
      fun c s' => PredReads Holds Reads inAny c
          (fun doc element => readClause doc element (m.1, engine m.2)) ∧
        RootsAdded s.roots s'.roots fun r => clauseMentions r inAny (m.1, engine m.2) := by
  obtain ⟨key, value⟩ := m
  cases hk : Filter.clauseKey key with
  | and => simp [isAnd, hk] at hand
  | or =>
    obtain rfl := clauseKey_or hk
    exact parseClause_or ft hH hnext inAny value s hg
  | not =>
    obtain rfl := clauseKey_not hk
    exact parseClause_not ft hnext inAny value s hg
  | path => exact parseClause_path ft hH hnext inAny key value s hg hk
  | operator =>
    simp only [parseClause, clauseKey_text, hk]
    exact Spends.refuse (by simp [clauseOk, hk])
  | unknown =>
    simp only [parseClause, clauseKey_text, hk]
    exact Spends.refuse (by simp [clauseOk, hk])

/-! ### The stack of `$and` -/

include hnext hH in
/-- What the entries of one object leave on the stack and add to the clauses. -/
theorem collectEntries_spends (inAny : Bool) (entries : List (String × Src))
    (pending : List (Json Units ν)) (out : List (Pred Doc El)) (s : Budget)
    (hg : ∀ m ∈ entries, good m.2) :
    Spends Budget.nodes maxNodes s (collectEntries H next inAny
        (entries.map fun m => (H.code.text m.1, hostValue H.code num m.2)) pending out)
      ((engineMembers entries).all (entryOk (n + 1) inAny) = true)
      ((engineMembers entries).map entryNodes).sum
      fun r s' => r.1 = (andItems entries).map (hostValue H.code num) ++ pending ∧
        (∃ cs, r.2 = out ++ cs ∧ List.Forall₂ (fun m c => PredReads Holds Reads inAny c
          fun doc element => readClause doc element (m.1, engine m.2)) (ownMembers entries) cs) ∧
        RootsAdded s.roots s'.roots fun r =>
          (ownMembers entries).any fun m => clauseMentions r inAny (m.1, engine m.2) := by
  induction entries generalizing pending out s with
  | nil =>
    refine (Spends.pure ?_).mono (by simp [engineMembers]) (by simp [engineMembers]) (fun _ _ _ h => h)
    exact ⟨rfl, ⟨[], by simp, .nil⟩, .refl (by simp [ownMembers])⟩
  | cons m rest ih =>
    obtain ⟨key, value⟩ := m
    rw [List.forall_mem_cons] at hg
    rw [List.map_cons, collectEntries]
    by_cases hkey : key = "$and"
    · have hk := clauseKey_and_iff.mpr hkey
      have hown : ownMembers ((key, value) :: rest) = ownMembers rest := by
        simp [ownMembers, isAnd, hk]
      rw [if_pos (by rw [hkey])]
      rcases filterList_cases H.code num (H.code.text key) value with
        ⟨items, rfl, hne, hlist⟩ | ⟨⟨e, hlist⟩, hno⟩
      · refine Spends.guard_ok hlist ((ih (items.map (hostValue H.code num) ++ pending) out s hg.2).mono
          ?_ ?_ ?_)
        · simp [engineMembers, entryOk, hk, engine_array, hne]
        · intro _
          simp [engineMembers, entryNodes, isAnd, hk]
        · intro _ r s' h
          rw [hown]
          refine ⟨?_, h.2⟩
          simp [h.1, andItems, hk]
      · refine Spends.guard_error hlist ?_
        intro h
        simp only [engineMembers, List.map_cons, List.all_cons, Bool.and_eq_true] at h
        cases hv : engine value with
        | array items => simp [entryOk, hk, hv, hno items hv] at h
        | _ => simp [entryOk, clauseOk, hk, hv] at h
    · have hk : Filter.clauseKey key ≠ .and := fun h => hkey (clauseKey_and_iff.mp h)
      have hand : isAnd (key, value) = false := by simp [isAnd, hk]
      have hown : ownMembers ((key, value) :: rest) = (key, value) :: ownMembers rest := by
        simp [ownMembers, hand]
      rw [if_neg (fun h => hkey (H.code.text_inj.mp h))]
      refine (Spends.bind (parseClause_spends ft hH hnext inAny (key, value) s hg.1 hand)
        (R := fun r s' => r.1 = (andItems ((key, value) :: rest)).map (hostValue H.code num) ++ pending ∧
        (∃ cs, r.2 = out ++ cs ∧ List.Forall₂ (fun m c => PredReads Holds Reads inAny c
          fun doc element => readClause doc element (m.1, engine m.2))
            (ownMembers ((key, value) :: rest)) cs) ∧
        RootsAdded s.roots s'.roots fun r =>
          (ownMembers ((key, value) :: rest)).any fun m => clauseMentions r inAny (m.1, engine m.2))
        fun c s' hc => (ih pending (out ++ [c]) s' hg.2).mono Iff.rfl (fun _ => rfl) ?_).mono
          ?_ ?_ (fun _ _ _ h => h)
      · intro _ r t h
        obtain ⟨hpending, ⟨cs, hout, hrel⟩, hroots⟩ := h
        rw [hown]
        refine ⟨by simp [hpending, andItems, hk], ⟨c :: cs, by simp [hout], .cons hc.1 hrel⟩, ?_⟩
        exact (hc.2.trans hroots).congr fun r => by simp
      · simp [engineMembers, entryOk, hk]
      · intro _
        simp [engineMembers, entryNodes, isAnd, hk]

/-- What one pass over the members `entries` and the passes after it leave: the closures
of its own members, then those of everything then on the stack. -/
structure Pass (ft : FloatText) (Holds : El → Src → Prop) (Reads : Doc → SrcDoc → Prop) (inAny : Bool)
    (s t : Budget) (entries : List (String × Src)) (rest : List Src)
    (own later : List (Pred Doc El)) : Prop where
  own_reads : List.Forall₂ (fun m c => PredReads Holds Reads inAny c
    fun doc element => readClause doc element (m.1, engine m.2)) (ownMembers entries) own
  later_reads : ClausesRead Holds Reads inAny later fun doc element =>
    (andItems entries ++ rest).all fun p => readFilter doc element (engine p)
  length : later.length = ((andItems entries ++ rest).flatMap fun p => clausesOf ft (engine p)).length
  roots : RootsAdded s.roots t.roots fun r =>
    ((ownMembers entries).any fun m => clauseMentions r inAny (m.1, engine m.2)) ||
      (andItems entries ++ rest).any fun p => mentions r inAny (engine p)

omit hH hnext in
/-- Together they are the closures of the object and of the rest of the stack. -/
theorem Pass.whole {inAny : Bool} {s t : Budget} {entries : List (String × Src)} {rest : List Src}
    {own later : List (Pred Doc El)} (h : Pass ft Holds Reads inAny s t entries rest own later)
    (hclauses : ∀ m ∈ engineMembers entries, clauseOk n inAny m = true) :
    ClausesRead Holds Reads inAny (own ++ later) (fun doc element =>
        readFilter doc element (engine (.object entries)) &&
          rest.all fun p => readFilter doc element (engine p)) ∧
      (own ++ later).length = (clausesOf ft (engine (.object entries))).length +
        (rest.flatMap fun p => clausesOf ft (engine p)).length ∧
      RootsAdded s.roots t.roots fun r => mentions r inAny (engine (.object entries)) ||
        rest.any fun p => mentions r inAny (engine p) := by
  refine ⟨?_, ?_, ?_⟩
  · intro d sd el element hd he
    have hown : (ownMembers entries).all (fun m => readClause (engineDoc sd) element (m.1, engine m.2)) =
        own.all fun c => c d el :=
      all_forall₂ h.own_reads fun m c hc => (hc d sd el element hd he).symm
    rw [List.all_append, h.later_reads d sd el element hd he, ← hown]
    simp only
    rw [List.all_append, engine_object,
      readFilter_object, all_split _ _ n inAny _ hclauses, andItems_engine, List.all_map, Bool.and_assoc]
    show _ = ((ownMembers (engineMembers entries)).all _ && _)
    rw [ownMembers_engine, engineMembers, List.all_map]
    rfl
  · have hown : own.length = (ownMembers entries).length := h.own_reads.length_eq.symm
    rw [List.length_append, hown, h.length, engine_object, clausesOf_object, andItems_engine,
      List.flatMap_append, List.length_append, List.length_append, List.length_map, List.flatMap_map]
    show _ = (ownMembers (engineMembers entries)).length + _ + _
    rw [ownMembers_engine, engineMembers, List.length_map, Nat.add_assoc]
  · refine h.roots.congr fun r => ?_
    rw [engine_object, mentions_object, mentions_split, andItems_engine]
    show _ = ((ownMembers (engineMembers entries)).any _ || _ || _)
    rw [ownMembers_engine, engineMembers, List.any_map, List.any_map, List.any_append, Bool.or_assoc]
    rfl

/-- The loop: what is collected and what is still on the stack together are the
clauses of the filter. -/
theorem collectClauses_spends (hH : Faithful H num good Holds Sees Reads)
    (hnext : LevelAgrees ft H num good Holds Sees Reads n next) (inAny : Bool) (passes : Nat)
    (pending : List Src) (out : List (Pred Doc El)) (s : Budget)
    (hpasses : Json.countItems pending ≤ passes) (hg : ∀ p ∈ pending, good p) :
    Spends Budget.nodes maxNodes s
      (collectClauses H next inAny passes (pending.map (hostValue H.code num)) out)
      (pending.all (fun p => filterOk (n + 1) inAny (engine p)) = true)
      (pending.map fun p => filterNodes (engine p)).sum
      fun r s' => ∃ cs, r = out ++ cs ∧
        ClausesRead Holds Reads inAny cs
          (fun doc element => pending.all fun p => readFilter doc element (engine p)) ∧
        cs.length = (pending.flatMap fun p => clausesOf ft (engine p)).length ∧
        RootsAdded s.roots s'.roots fun r => pending.any fun p => mentions r inAny (engine p) := by
  induction passes generalizing pending out s with
  | zero =>
    cases pending with
    | nil =>
      refine (Spends.pure ?_).mono (by simp) (by simp) (fun _ _ _ h => h)
      exact ⟨[], by simp, fun _ _ _ _ _ _ => rfl, rfl, .refl (by simp)⟩
    | cons src rest =>
      have := Json.count_pos src
      rw [Json.countItems] at hpasses
      omega
  | succ passes ih =>
    cases pending with
    | nil =>
      refine (Spends.pure ?_).mono (by simp) (by simp) (fun _ _ _ h => h)
      exact ⟨[], by simp, fun _ _ _ _ _ _ => rfl, rfl, .refl (by simp)⟩
    | cons src rest =>
      rw [List.forall_mem_cons] at hg
      rw [List.map_cons]
      cases src with
      | object map =>
        obtain ⟨entries, hperm, hentries⟩ := exists_members hH hg.1
        have hmembers : (engineMembers entries).Perm (engineMembers map) := hperm.map _
        obtain ⟨hok, hnodes, hread, hmentions, hlength⟩ := object_perm ft hmembers
        have hgood : ∀ m ∈ entries, good m.2 := fun m hm =>
          (hH.good_object hg.1).2 m (hperm.mem_iff.mp hm)
        have hitems : ∀ i ∈ andItems entries, good i := by
          intro i hi
          obtain ⟨m, hm, -, items, hitems, hi⟩ := mem_andItems.mp hi
          have hgm := hgood m hm
          rw [hitems] at hgm
          exact hH.good_array hgm i hi
        have hcount : Json.countItems (andItems entries ++ rest) ≤ passes := by
          have hand := countItems_andItems entries
          rw [Json.countMembers_eq_sum, (hperm.map _).sum_eq, ← Json.countMembers_eq_sum] at hand
          rw [Json.countItems, Json.count] at hpasses
          rw [Json.countItems_append]
          omega
        have hpass : ∀ (r : List (Json Units ν) × List (Pred Doc El)) s', (r.1 = (andItems entries).map (hostValue H.code num) ++
              rest.map (hostValue H.code num) ∧
            (∃ cs, r.2 = out ++ cs ∧ List.Forall₂ (fun m c => PredReads Holds Reads inAny c
              fun doc element => readClause doc element (m.1, engine m.2)) (ownMembers entries) cs) ∧
            RootsAdded s.roots s'.roots fun r =>
              (ownMembers entries).any fun m => clauseMentions r inAny (m.1, engine m.2)) →
            Spends Budget.nodes maxNodes s' (collectClauses H next inAny passes r.1 r.2)
              ((andItems entries ++ rest).all (fun p => filterOk (n + 1) inAny (engine p)) = true)
              ((andItems entries ++ rest).map fun p => filterNodes (engine p)).sum
              fun r t => ∃ own later, r = out ++ (own ++ later) ∧
                Pass ft Holds Reads inAny s t entries rest own later := by
          intro r s' hr
          obtain ⟨stack, out'⟩ := r
          obtain ⟨rfl, ⟨own, rfl, hown⟩, hroots⟩ := hr
          rw [← List.map_append]
          refine (ih (andItems entries ++ rest) (out ++ own) s' hcount
            (List.forall_mem_append.mpr ⟨hitems, hg.2⟩)).mono Iff.rfl (fun _ => rfl) ?_
          intro _ r t h
          obtain ⟨later, rfl, hlater, hlen, hmore⟩ := h
          exact ⟨own, later, List.append_assoc .., hown, hlater, hlen, hroots.trans hmore⟩
        rw [hostValue_object]
        simp only [collectClauses, hentries]
        refine (Spends.bind (collectEntries_spends ft hH hnext inAny entries _ out s hgood) hpass).mono
          ?_ ?_ ?_
        · rw [List.all_cons, engine_object, ← hok, filterOk_object, clausesOk_split, andItems_engine,
            List.all_append, List.all_map]
          simp [and_assoc, Function.comp_def]
        · intro _
          rw [List.map_cons, List.sum_cons, engine_object, ← hnodes, filterNodes_object,
            clauseNodes_split, andItems_engine, List.map_append, List.sum_append, List.map_map,
            Nat.add_assoc]
          rfl
        · intro hvalid r t h
          obtain ⟨own, later, rfl, hpass⟩ := h
          have hclauses : ∀ m ∈ engineMembers entries, clauseOk (n + 1) inAny m = true := by
            have hitemsOk := hvalid.2
            rw [List.all_append, Bool.and_eq_true] at hitemsOk
            rw [← List.all_eq_true, clausesOk_split, andItems_engine, List.all_map, Bool.and_eq_true]
            exact ⟨hvalid.1, hitemsOk.1⟩
          obtain ⟨hclosures, hlen, hroots⟩ := Pass.whole ft hpass hclauses
          refine ⟨own ++ later, rfl, ?_, ?_, ?_⟩
          · intro d sd el element hd he
            rw [hclosures d sd el element hd he]
            simp only [engine_object, hread, List.all_cons]
          · rw [hlen, engine_object, hlength, List.flatMap_cons, List.length_append, engine_object]
          · exact hroots.congr fun r => by rw [engine_object, hmentions, List.any_cons, engine_object]
      | array items =>
        rw [hostValue_array]
        exact Spends.refuse (by simp [engine_array, filterOk])
      | _ => exact Spends.refuse (by simp [engine, Json.map, filterOk])

/-- Every level of the host keeps the promise of the language. -/
theorem level_agrees (hH : Faithful H num good Holds Sees Reads) (n : Nat) :
    LevelAgrees ft H num good Holds Sees Reads n (level H n) := by
  induction n with
  | zero =>
    refine ⟨fun src inAny s _ => Spends.refuse ?_, fun path map s _ => Spends.refuse (by simp)⟩
    intro h
    exact filterOk_ne_zero h rfl
  | succ n ih =>
    refine ⟨fun src inAny s hg => ?_, fun path map s hg =>
      (parseOperators_spends ft hH ih path map s hg).mono (by simp) (fun _ => rfl) (fun _ _ _ h => h)⟩
    have hloop := collectClauses_spends ft hH ih inAny src.count [src] [] s (by simp [Json.countItems])
      (by simpa using hg)
    rw [List.map_singleton] at hloop
    show Spends _ _ _ (collectClauses H (level H n) inAny (hostValue H.code num src).count
      [hostValue H.code num src] []) _ _ _
    rw [count_hostValue]
    refine hloop.mono (by simp) (by simp) ?_
    intro _ r t h
    obtain ⟨cs, rfl, hreads, hlen, hroots⟩ := h
    refine ⟨?_, by simpa using hlen, hroots.congr fun r => by simp⟩
    intro d sd el element hd he
    simpa using hreads d sd el element hd he

/-- What an accepted top-level filter compiles to. -/
structure Compiled (ft : FloatText) (Holds : El → Src → Prop) (Reads : Doc → SrcDoc → Prop) (src : Src)
    (clauses : List (Pred Doc El)) (roots : Roots) : Prop where
  matches_eq : ∀ d sd el, Reads d sd →
    andPred clauses d el = readFilter (engineDoc sd) none (engine src)
  roots_eq : ∀ r, r ≠ .element → roots.has r = mentions r false (engine src)
  length_eq : clauses.length = (clausesOf ft (engine src)).length

/-- **The compiler accepts the filters of the language within its limits**, and its
closures match what they read. -/
theorem compileClauses_agrees (hH : Faithful H num good Holds Sees Reads) {src : Src} (hg : good src) :
    ((∃ r, compileClauses H (hostValue H.code num src) = .ok r) ↔
      filterOk maxDepth false (engine src) = true ∧ filterNodes (engine src) ≤ maxNodes) ∧
    ∀ clauses roots, compileClauses H (hostValue H.code num src) = .ok (clauses, roots) →
      Compiled ft Holds Reads src clauses roots := by
  have h := (level_agrees ft hH maxDepth).collect src false {} hg
  have hrun : ∀ clauses roots, compileClauses H (hostValue H.code num src) = .ok (clauses, roots) ↔
      ∃ s, ((level H maxDepth).collect (hostValue H.code num src) false).run {} = .ok (clauses, s) ∧
        s.roots = roots := by
    intro clauses roots
    unfold compileClauses
    cases ((level H maxDepth).collect (hostValue H.code num src) false).run {} with
    | error e => simp [bind, Except.bind]
    | ok r =>
      obtain ⟨cs, s⟩ := r
      simp [bind, Except.bind, pure, Except.pure, and_comm]
  have haccepts := h.accepts_iff (Nat.zero_le _)
  rw [show ({} : Budget).nodes + filterNodes (engine src) = filterNodes (engine src) from Nat.zero_add _]
    at haccepts
  constructor
  · rw [← haccepts]
    constructor
    · rintro ⟨⟨clauses, roots⟩, hr⟩
      obtain ⟨s, hs, -⟩ := (hrun clauses roots).mp hr
      exact ⟨_, hs⟩
    · rintro ⟨⟨clauses, s⟩, hs⟩
      exact ⟨_, (hrun clauses s.roots).mpr ⟨s, hs, rfl⟩⟩
  · intro clauses roots hr
    obtain ⟨s, hs, rfl⟩ := (hrun clauses roots).mp hr
    obtain ⟨-, -, -, hreads, hlen, hroots⟩ := h.of_run (Nat.zero_le _) hs
    refine ⟨?_, ?_, hlen⟩
    · intro d sd el hd
      rw [andPred_eq]
      exact hreads d sd el none hd rfl
    · intro r hne
      rw [hroots r hne]
      cases r <;> simp [Roots.has] at hne ⊢

/-! ### Host and engine -/

theorem unique_engine {src : Src} (h : src.Unique) : (engine src).Unique := by
  induction src using Json.ind with
  | array items ih =>
    rw [engine_array, Json.unique_array, List.forall_mem_map]
    exact fun i hi => ih i hi (Json.unique_array.mp h i hi)
  | object map ih =>
    rw [engine_object, Json.unique_object, engineMembers, List.map_map, List.forall_mem_map]
    exact ⟨(Json.unique_object.mp h).1, fun m hm => ih m hm ((Json.unique_object.mp h).2 m hm)⟩
  | _ => trivial

/-- A compiled filter of the host and the filter of the engine answer alike. -/
theorem Compiled.agrees {src : Src} {clauses : List (Pred Doc El)} {roots : Roots}
    (h : Compiled ft Holds Reads src clauses roots) (hu : src.Unique) {f : Iii.Filter}
    (hf : f.Of ft (engine src)) :
    (∀ d sd el, Reads d sd → andPred clauses d el = f.matches (engineDoc sd)) ∧ roots = f.roots ∧
      (clauses.isEmpty = f.isMatchAll) := by
  refine ⟨?_, ?_, ?_⟩
  · intro d sd el hd
    rw [h.matches_eq d sd el hd, hf.matches_normal,
      readFilter_normal ft hf.admissible.valid (unique_engine hu)]
  · refine Roots.ext_has fun r hr => ?_
    rw [h.roots_eq r hr, hf.roots r hr, mentions_normal]
  · rw [Bool.eq_iff_iff, hf.matchAll, normal_eq_empty, ← List.length_eq_zero_iff, ← h.length_eq,
      List.length_eq_zero_iff, List.isEmpty_iff]

end Agree

/-! ### A filter and two documents -/

/-- `{"input.n":{"$gt":1}}`, and documents with `n` at 2 and at 1. -/
def one : NumText := .integer false 1 ⟨false, 2 ^ 52, 1022, by decide, by decide, by decide⟩ (by decide +kernel)

def two : NumText := .integer false 2 ⟨false, 2 ^ 52, 1023, by decide, by decide, by decide⟩ (by decide +kernel)

def aboveOne : Src := .object [("input.n", .object [("$gt", .number one)])]

def withN (n : NumText) : Src := .object [("input", .object [("n", .number n)])]

theorem aboveOne_unique : aboveOne.Unique := by simp [aboveOne, Json.Unique, Json.UniqueMembers]

theorem withN_plain (n : NumText) : Plain (withN n) where
  unique := by simp [withN, Json.Unique, Json.UniqueMembers]
  short := by simp [withN, Json.Short, Json.ShortMembers]

end Iii.Sdk
