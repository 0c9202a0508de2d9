import Iii.Filter.Clauses

/-! Literals and single operators: what the parser checks is what the language asks
for, and the operator it compiles answers as the language reads it. -/
namespace Iii.Filter

variable {ε α : Type}

theorem Except.ok_isOk {x : Except ε α} : x.isOk = true ↔ ∃ a, x = .ok a := by
  cases x with
  | error e => simp [Except.isOk, Except.toBool]
  | ok a => simp [Except.isOk, Except.toBool]

theorem bind_ok {x y : Except ε Unit} :
    (x >>= fun _ => y) = .ok () ↔ x = .ok () ∧ y = .ok () := by
  cases x with
  | error e => simp [bind, Except.bind]
  | ok u => simp [bind, Except.bind]

theorem bind_pure_ok {x : Except ε Unit} {a b : α} :
    (x >>= fun _ => pure a) = .ok b ↔ x = .ok () ∧ a = b := by
  cases x with
  | error e => simp [bind, Except.bind]
  | ok u => simp [bind, Except.bind, pure, Except.pure]

theorem map_ok {β : Type} {f : α → β} {x : Except ε α} {b : β} :
    f <$> x = .ok b ↔ ∃ a, x = .ok a ∧ f a = b := by
  cases x with
  | error e => simp [Functor.map, Except.map]
  | ok a => simp [Functor.map, Except.map]

theorem bind_map_ok {β : Type} {x : Except ε α} {f : α → β} {b : β} (h : (x >>= fun a => pure (f a)) = .ok b) :
    ∃ a, x = .ok a ∧ f a = b := by
  rw [bind_pure_comp] at h
  rwa [map_ok] at h

/-- A loop that stops at the first error passes when every step does. -/
theorem forM_ok {check : α → Except ε Unit} {l : List α} :
    l.forM check = .ok () ↔ ∀ a ∈ l, check a = .ok () := by
  induction l with
  | nil => simp [pure, Except.pure]
  | cons a rest ih =>
    have hcons : (a :: rest).forM check = (check a >>= fun _ => rest.forM check) := rfl
    rw [hcons, bind_ok, ih, List.forall_mem_cons]

/-! ### What an operator asks of its operand -/

/-- An ordering operand is a string or a number in range. -/
def boundOk : Value → Bool
  | .number n => n.inRange
  | .string _ => true
  | _ => false

def setOk : Value → Bool
  | .array items => items.length ≤ maxSetItems && items.all literalOk
  | _ => false

/-- The operators that order. -/
def OpName.orders : OpName → Bool
  | .gt | .gte | .lt | .lte => true
  | _ => false

theorem leafOk_set {name : String} (h : opName name = .inSet ∨ opName name = .nin) (operand : Value) :
    leafOk name operand = setOk operand := by
  unfold leafOk
  rcases h with h | h <;> rw [h] <;> cases operand <;> rfl

theorem leafOk_bound {name : String} (h : (opName name).orders = true) (operand : Value) :
    leafOk name operand = boundOk operand := by
  unfold leafOk
  cases hn : opName name <;> rw [hn] at h <;> simp only [OpName.orders, Bool.false_eq_true] at h <;>
    cases operand <;> rfl

/-! ### Literals -/

section Literals
variable (ft : FloatText) (path name : String)

theorem checkNumber_ok (n : Number) : checkNumber ft path name n = .ok () ↔ n.inRange = true := by
  unfold checkNumber
  split_ifs with h <;> simp [h]

theorem walkItems_ok (level : Nat) (items : List Value) :
    walkItems ft path name level items = .ok () ↔
      ∀ j ∈ items, walkLiteral ft path name level j = .ok () := by
  induction items with
  | nil => simp [walkItems]
  | cons j rest ih => rw [walkItems, bind_ok, ih, List.forall_mem_cons]

theorem walkMembers_ok (level : Nat) (map : List (String × Value)) :
    walkMembers ft path name level map = .ok () ↔
      ∀ m ∈ map, walkLiteral ft path name level m.2 = .ok () := by
  induction map with
  | nil => simp [walkMembers]
  | cons m rest ih => rw [walkMembers, bind_ok, ih, List.forall_mem_cons]

theorem numbersOkItems_iff (items : List Value) :
    numbersOkItems items = true ↔ ∀ j ∈ items, numbersOk j = true := by
  induction items with
  | nil => exact ⟨fun _ _ h => absurd h List.not_mem_nil, fun _ => rfl⟩
  | cons j rest ih =>
    rw [List.forall_mem_cons, ← ih]
    exact Bool.and_eq_true_iff

theorem numbersOkMembers_iff (map : List (String × Value)) :
    numbersOkMembers map = true ↔ ∀ m ∈ map, numbersOk m.2 = true := by
  induction map with
  | nil => exact ⟨fun _ _ h => absurd h List.not_mem_nil, fun _ => rfl⟩
  | cons m rest ih =>
    rw [List.forall_mem_cons, ← ih]
    exact Bool.and_eq_true_iff

theorem numbersOk_array (items : List Value) :
    numbersOk (.array items) = true ↔ ∀ j ∈ items, numbersOk j = true :=
  numbersOkItems_iff items

theorem numbersOk_object (map : List (String × Value)) :
    numbersOk (.object map) = true ↔ ∀ m ∈ map, numbersOk m.2 = true :=
  numbersOkMembers_iff map

/-- The walk of a literal stops exactly below the depth the language allows. -/
theorem walkLiteral_ok (v : Value) (level : Nat) (hl : level ≤ maxLiteralDepth + 1) :
    walkLiteral ft path name level v = .ok () ↔
      numbersOk v = true ∧ v.depth ≤ maxLiteralDepth + 1 - level := by
  induction v using Json.ind generalizing level with
  | null => simp [walkLiteral, numbersOk, Json.depth]
  | bool b => simp [walkLiteral, numbersOk, Json.depth]
  | string s => simp [walkLiteral, numbersOk, Json.depth]
  | number n => simp [walkLiteral, numbersOk, Json.depth, checkNumber_ok]
  | array items ih =>
    rw [walkLiteral, numbersOk_array, Json.depth_array_le]
    split_ifs with h
    · simp
      omega
    · rw [walkItems_ok]
      have hstep : ∀ j ∈ items, (walkLiteral ft path name (level + 1) j = .ok () ↔
          numbersOk j = true ∧ j.depth ≤ maxLiteralDepth + 1 - level - 1) :=
        fun j hj => ih j hj (level + 1) (by omega)
      rw [forall₂_congr hstep]
      simp only [forall_and]
      have : 1 ≤ maxLiteralDepth + 1 - level := by omega
      simp [this]
  | object map ih =>
    rw [walkLiteral, numbersOk_object, Json.depth_object_le]
    split_ifs with h
    · simp
      omega
    · rw [walkMembers_ok]
      have hstep : ∀ m ∈ map, (walkLiteral ft path name (level + 1) m.2 = .ok () ↔
          numbersOk m.2 = true ∧ m.2.depth ≤ maxLiteralDepth + 1 - level - 1) :=
        fun m hm => ih m hm (level + 1) (by omega)
      rw [forall₂_congr hstep]
      simp only [forall_and]
      have : 1 ≤ maxLiteralDepth + 1 - level := by omega
      simp [this]

theorem checkLiteral_ok (v : Value) : checkLiteral ft path name v = .ok () ↔ literalOk v = true := by
  rw [checkLiteral, walkLiteral_ok _ _ _ _ _ (by decide)]
  simp [literalOk]

end Literals

/-! ### Operators with an operand kept as written -/

section Leaves
variable (ft : FloatText) (path name : String)

theorem forM_checkLiteral (items : List Value) :
    items.forM (checkLiteral ft path name) = .ok () ↔ items.all literalOk = true := by
  rw [forM_ok, List.all_eq_true]
  exact forall₂_congr fun j _ => checkLiteral_ok ft path name j

theorem parseSet_ok (operand : Value) (items : List Value) :
    parseSet ft path name operand = .ok items ↔
      operand = .array items ∧ items.length ≤ maxSetItems ∧ items.all literalOk = true := by
  cases operand with
  | array items' =>
    simp only [parseSet]
    split_ifs with h
    · constructor
      · intro h'
        cases h'
      · rintro ⟨h', hlen, _⟩
        cases h'
        omega
    · cases hall : items'.forM (checkLiteral ft path name) with
      | error e =>
        have hno : ¬ items'.all literalOk = true := by
          rw [← forM_checkLiteral ft path name, hall]
          simp
        simp only [bind, Except.bind, reduceCtorEq, Json.array.injEq, false_iff]
        rintro ⟨rfl, _, h'⟩
        exact hno h'
      | ok u =>
        have hyes : items'.all literalOk = true := (forM_checkLiteral ft path name items').mp hall
        simp only [bind, Except.bind, pure, Except.pure, Except.ok.injEq, Json.array.injEq]
        constructor
        · rintro rfl
          exact ⟨rfl, by omega, hyes⟩
        · exact fun h => h.1
  | _ => simp [parseSet, throw, throwThe, MonadExceptOf.throw]

/-- What an ordering operator compares with. -/
def boundOf : Value → Option Bound
  | .number n => some (.num n.asF64)
  | .string s => some (.str s)
  | _ => none

theorem parseBound_ok (operand : Value) (b : Bound) :
    parseBound ft path name operand = .ok b ↔
      boundOf operand = some b ∧ (∀ n, operand = .number n → n.inRange = true) := by
  cases operand with
  | number n =>
    simp only [parseBound, boundOf, Json.number.injEq]
    cases h : checkNumber ft path name n with
    | error e =>
      have hno : ¬ n.inRange = true := by
        rw [← checkNumber_ok ft path name, h]
        simp
      simp only [bind, Except.bind, reduceCtorEq, false_iff]
      exact fun h' => hno (h'.2 n rfl)
    | ok u =>
      have hyes : n.inRange = true := (checkNumber_ok ft path name n).mp h
      simp only [bind, Except.bind, pure, Except.pure, Except.ok.injEq, Option.some.injEq]
      exact ⟨fun h' => ⟨h', fun m hm => hm ▸ hyes⟩, fun h' => h'.1⟩
  | string s => simp [parseBound, boundOf, pure, Except.pure]
  | _ => simp [parseBound, boundOf, throw, throwThe, MonadExceptOf.throw]

theorem compareBound_eq {operand : Value} {b : Bound} (h : boundOf operand = some b)
    (value : Option Value) : compareBound value b = ordering value operand := by
  cases operand <;> simp only [boundOf, reduceCtorEq, Option.some.injEq] at h <;> subst h <;>
    rcases value with _ | value <;> first | rfl | (cases value <;> rfl)

theorem parseLeaf_ok {operand : Value} {op : Op} (h : parseLeaf ft path name operand = .ok op) :
    leafOk name operand = true ∧ ∀ doc value, op.matches doc value = readLeaf name operand value := by
  unfold parseLeaf at h
  unfold leafOk readLeaf
  cases hn : opName name <;> rw [hn] at h <;> simp only at h ⊢
  case eq =>
    obtain ⟨hl, rfl⟩ := bind_pure_ok.mp h
    exact ⟨(checkLiteral_ok ft path name operand).mp hl, fun _ _ => rfl⟩
  case ne =>
    obtain ⟨hl, rfl⟩ := bind_pure_ok.mp h
    exact ⟨(checkLiteral_ok ft path name operand).mp hl, fun _ _ => rfl⟩
  case inSet =>
    obtain ⟨items, hs, rfl⟩ := map_ok.mp h
    obtain ⟨rfl, hlen, hall⟩ := (parseSet_ok ft path name operand items).mp hs
    exact ⟨by simp only [hlen, hall, decide_true, Bool.and_self], fun _ _ => rfl⟩
  case nin =>
    obtain ⟨items, hs, rfl⟩ := map_ok.mp h
    obtain ⟨rfl, hlen, hall⟩ := (parseSet_ok ft path name operand items).mp hs
    exact ⟨by simp only [hlen, hall, decide_true, Bool.and_self], fun _ _ => rfl⟩
  case existsIs =>
    cases operand with
    | bool b =>
      cases h
      exact ⟨rfl, fun _ _ => rfl⟩
    | _ => cases h
  case hasPrefix =>
    cases operand with
    | string s =>
      cases h
      refine ⟨rfl, fun doc value => ?_⟩
      rcases value with _ | value
      · rfl
      · cases value <;> rfl
    | _ => cases h
  case any => cases h
  case combinator => cases h
  case unknown => cases h
  all_goals
    obtain ⟨b, hb, rfl⟩ := map_ok.mp h
    obtain ⟨ho, hr⟩ := (parseBound_ok ft path name operand b).mp hb
    refine ⟨?_, fun doc value => by simp only [Op.matches, compareBound_eq ho]⟩
    cases operand with
    | number n => exact hr n rfl
    | string s => rfl
    | _ => cases ho

theorem parseLeaf_accepts {operand : Value} (h : leafOk name operand = true) :
    ∃ op, parseLeaf ft path name operand = .ok op := by
  have hset : ∀ {items : List Value},
      (decide (items.length ≤ maxSetItems) && items.all literalOk) = true →
      parseSet ft path name (.array items) = .ok items := by
    intro items h
    rw [Bool.and_eq_true, decide_eq_true_eq] at h
    exact (parseSet_ok ft path name _ items).mpr ⟨rfl, h⟩
  have hnum : ∀ {n : Number}, n.inRange = true →
      parseBound ft path name (.number n) = .ok (.num n.asF64) := fun h =>
    (parseBound_ok ft path name _ _).mpr ⟨rfl, fun m hm => by cases hm; exact h⟩
  have hstr : ∀ {s : String}, parseBound ft path name (.string s) = .ok (.str s) := fun {s} =>
    (parseBound_ok ft path name _ _).mpr ⟨rfl, fun m hm => by cases hm⟩
  unfold leafOk at h
  unfold parseLeaf
  cases hn : opName name <;> rw [hn] at h <;> simp only at h ⊢
  case eq => exact ⟨_, bind_pure_ok.mpr ⟨(checkLiteral_ok ft path name operand).mpr h, rfl⟩⟩
  case ne => exact ⟨_, bind_pure_ok.mpr ⟨(checkLiteral_ok ft path name operand).mpr h, rfl⟩⟩
  case any => simp at h
  case combinator => simp at h
  case unknown => simp at h
  all_goals
    cases operand <;> simp only [Bool.false_eq_true] at h <;>
      first
      | exact ⟨_, map_ok.mpr ⟨_, hset h, rfl⟩⟩
      | exact ⟨_, map_ok.mpr ⟨_, hnum h, rfl⟩⟩
      | exact ⟨_, map_ok.mpr ⟨_, hstr, rfl⟩⟩
      | exact ⟨_, rfl⟩

theorem parseLeaf_isOk (operand : Value) :
    (∃ op, parseLeaf ft path name operand = .ok op) ↔ leafOk name operand = true :=
  ⟨fun ⟨_, h⟩ => (parseLeaf_ok ft path name h).1, parseLeaf_accepts ft path name⟩

end Leaves
end Iii.Filter
