import Iii.Filter.Correct

/-! The filter language by its grammar.

`IsFilter` says which JSON values are filters as a grammar does, clause by clause: no parser, no budget, no order of
reading. Depth and nodes are measured on the side, over the whole value. `Filter.parse` accepts exactly the values
that are filters by this grammar and within the limits (`Filter.parse_accepts`): neither the stack that `$and` is
walked with, nor the budget that is taken node by node, nor the two walks in front decides anything else. -/
namespace Iii.Filter
open Lib

/-! ### Paths -/

/-- A key as a path spells it: `\.` and `\\` are the only escapes. -/
def escapeKey (key : List Char) : List Char :=
  key.flatMap fun c => if c = '.' ∨ c = '\\' then ['\\', c] else [c]

/-- The segments after the root. -/
def segmentsText (keys : List String) : List Char := keys.flatMap fun key => '.' :: escapeKey key.toList

def rootNames (inAny : Bool) : List String :=
  if inAny then ["@"] else ["input", "output", "error", "caller", "metadata"]

/-- `root ("." segment)*`, no segment empty. -/
structure Spells (inAny : Bool) (root : String) (keys : List String) (raw : String) : Prop where
  text : raw.toList = escapeKey root.toList ++ segmentsText keys
  root : root ∈ rootNames inAny
  keys : ∀ key ∈ keys, key ≠ ""

def IsPath (inAny : Bool) (raw : String) : Prop :=
  ∃ root keys, Spells inAny root keys raw ∧ keys.length ≤ maxPathSegments

theorem splitPath_plain {c : Char} (hslash : c ≠ '\\') (hdot : c ≠ '.') (raw : String) (rest : List Char)
    (parts : List String) (current : List Char) :
    splitPath raw (c :: rest) parts current = splitPath raw rest parts (current ++ [c]) := by
  rw [splitPath, if_neg hdot]
  · intro h
    exact absurd h hslash
  · intro _ _ h
    exact absurd h hslash

theorem splitPath_escapeKey (raw : String) (key rest : List Char) (parts : List String) (current : List Char) :
    splitPath raw (escapeKey key ++ rest) parts current = splitPath raw rest parts (current ++ key) := by
  induction key generalizing current with
  | nil => rw [List.append_nil]; rfl
  | cons c key ih =>
    have hsplit : escapeKey (c :: key) ++ rest =
        (if c = '.' ∨ c = '\\' then ['\\', c] else [c]) ++ (escapeKey key ++ rest) := by
      rw [escapeKey, List.flatMap_cons, List.append_assoc]
      rfl
    rw [hsplit, List.append_cons current c key, ← ih]
    by_cases hc : c = '.' ∨ c = '\\'
    · rw [if_pos hc]
      exact if_pos hc
    · rw [if_neg hc]
      exact splitPath_plain (fun h => hc (.inr h)) (fun h => hc (.inl h)) raw _ parts current

theorem splitPath_segments (raw : String) {keys : List String} (hkeys : ∀ key ∈ keys, key ≠ "") (parts : List String)
    {current : List Char} (hcurrent : current ≠ []) :
    splitPath raw (segmentsText keys) parts current = .ok (parts ++ String.ofList current :: keys) := by
  induction keys generalizing parts current with
  | nil => exact if_neg hcurrent
  | cons key keys ih =>
    rw [List.forall_mem_cons] at hkeys
    have hkey : key.toList ≠ [] := by
      intro h
      exact hkeys.1 (String.toList_inj.mp h)
    have hdot : splitPath raw ('.' :: (escapeKey key.toList ++ segmentsText keys)) parts current =
        splitPath raw (escapeKey key.toList ++ segmentsText keys) (parts ++ [String.ofList current]) [] := by
      exact if_neg hcurrent
    show splitPath raw ('.' :: (escapeKey key.toList) ++ segmentsText keys) parts current = _
    rw [List.cons_append, hdot, splitPath_escapeKey, List.nil_append, ih hkeys.2 _ hkey, String.ofList_toList,
      List.append_assoc]
    rfl

/-- What the loop over the characters reads is what the text spells. -/
theorem splitPath_ok {raw : String} {s : List Char} {parts : List String} {current : List Char} {out : List String}
    (h : splitPath raw s parts current = .ok out) :
    ∃ first keys, s = escapeKey first ++ segmentsText keys ∧ out = parts ++ String.ofList (current ++ first) :: keys ∧
      current ++ first ≠ [] ∧ ∀ key ∈ keys, key ≠ "" := by
  fun_induction splitPath raw s parts current with
  | case1 parts => cases h
  | case2 parts current hne =>
    cases h
    exact ⟨[], [], rfl, by rw [List.append_nil], by rwa [List.append_nil], by simp⟩
  | case3 => cases h
  | case4 c rest parts current hc ih =>
    obtain ⟨first, keys, hs, hout, hne, hkeys⟩ := ih h
    refine ⟨c :: first, keys, ?_, by rw [hout, ← List.append_cons], by simp, hkeys⟩
    rw [hs, escapeKey, escapeKey, List.flatMap_cons, if_pos hc]
    rfl
  | case5 => cases h
  | case6 => cases h
  | case7 rest parts current hne _ _ ih =>
    obtain ⟨first, keys, hs, hout, hfirst, hkeys⟩ := ih h
    rw [List.nil_append] at hout hfirst
    refine ⟨[], String.ofList first :: keys, ?_, ?_, by rwa [List.append_nil], ?_⟩
    · rw [hs, segmentsText, segmentsText, List.flatMap_cons, String.toList_ofList]
      rfl
    · rw [hout, List.append_nil, List.append_assoc]
      rfl
    · rw [List.forall_mem_cons]
      refine ⟨fun he => hfirst ?_, hkeys⟩
      rw [← String.toList_ofList (l := first), he]
      rfl
  | case8 c rest parts current hend hesc hd ih =>
    have hslash : c ≠ '\\' := by
      rintro rfl
      cases rest with
      | nil => exact hend rfl rfl
      | cons d rest => exact hesc d rest rfl rfl
    obtain ⟨first, keys, hs, hout, hne, hkeys⟩ := ih h
    refine ⟨c :: first, keys, ?_, by rw [hout, ← List.append_cons], by simp, hkeys⟩
    rw [hs, escapeKey, escapeKey, List.flatMap_cons, if_neg (by simp [hd, hslash])]
    rfl

theorem parseRoot_isOk (raw first : String) (inAny : Bool) :
    (∃ root, parseRoot raw first inAny = .ok root) ↔ first ∈ rootNames inAny := by
  unfold parseRoot Root.fromSegment rootNames
  cases inAny <;> split_ifs <;> simp_all

/-- `Path::parse` reads the paths of the grammar. -/
theorem pathOk_iff (raw : String) (inAny : Bool) : pathOk raw inAny = true ↔ IsPath inAny raw := by
  rw [pathOk, Except.ok_isOk]
  unfold Path.parse
  constructor
  · rintro ⟨path, h⟩
    cases hparts : splitPath raw raw.toList [] [] with
    | error e =>
      rw [hparts] at h
      cases h
    | ok parts =>
      obtain ⟨first, keys, htext, rfl, hne, hkeys⟩ := splitPath_ok hparts
      cases hroot : parseRoot raw (String.ofList first) inAny with
      | error e =>
        simp only [hparts, List.nil_append, List.headD_cons, hroot, bind, Except.bind] at h
        cases h
      | ok root =>
        simp only [hparts, List.nil_append, List.headD_cons, hroot, bind, Except.bind, List.tail_cons,
          List.length_map] at h
        split at h
        · cases h
        · rename_i hlen
          refine ⟨String.ofList first, keys, ⟨?_, (parseRoot_isOk raw _ inAny).mp ⟨root, hroot⟩, hkeys⟩,
            Nat.le_of_not_gt hlen⟩
          rwa [String.toList_ofList]
  · rintro ⟨root, keys, ⟨htext, hroot, hkeys⟩, hlen⟩
    have hne : root.toList ≠ [] := by
      intro h
      rw [String.toList_inj.mp (show root.toList = "".toList from h)] at hroot
      cases inAny <;> exact absurd hroot (by decide)
    have hparts : splitPath raw raw.toList [] [] = .ok (root :: keys) := by
      rw [htext, splitPath_escapeKey, List.nil_append, splitPath_segments raw hkeys [] hne, String.ofList_toList,
        List.nil_append]
    obtain ⟨r, hr⟩ := (parseRoot_isOk raw root inAny).mpr hroot
    refine ⟨⟨r, keys.map fun key => ⟨key, canonicalIndex key⟩⟩, ?_⟩
    simp only [hparts, List.headD_cons, hr, bind, Except.bind, List.tail_cons, List.length_map,
      if_neg (Nat.not_lt.mpr hlen), pure, Except.pure]

/-! ### Literals and operands -/

/-- The value of a number, in units of `2^-1074`. -/
def exactValue : Number → Int
  | .posInt u => u * F64.one
  | .negInt m => -((m + 1) * F64.one)
  | .float f => f.value

/-- Within ±2^53. -/
def Within (n : Number) : Prop := (exactValue n).natAbs ≤ maxSafeInteger * 2 ^ 1074

structure IsLiteral (v : Value) : Prop where
  depth : v.depth ≤ maxLiteralDepth
  numbers : v.All (fun _ => True) Within

/-- The operators that order. -/
def orderNames : List String := ["$gt", "$gte", "$lt", "$lte"]

/-- The operand of an operator other than `$any`. -/
inductive IsOperand : String → Value → Prop
  | eq {v : Value} (h : IsLiteral v) : IsOperand "$eq" v
  | ne {v : Value} (h : IsLiteral v) : IsOperand "$ne" v
  | inSet {items : List Value} (hlen : items.length ≤ maxSetItems) (h : ∀ v ∈ items, IsLiteral v) :
      IsOperand "$in" (.array items)
  | nin {items : List Value} (hlen : items.length ≤ maxSetItems) (h : ∀ v ∈ items, IsLiteral v) :
      IsOperand "$nin" (.array items)
  | number {name : String} {n : Number} (hname : name ∈ orderNames) (h : Within n) :
      IsOperand name (.number n)
  | string {name : String} (s : String) (hname : name ∈ orderNames) : IsOperand name (.string s)
  | existsIs (b : Bool) : IsOperand "$exists" (.bool b)
  | hasPrefix (s : String) : IsOperand "$prefix" (.string s)

theorem inRange_iff (n : Number) : n.inRange = true ↔ Within n := by
  have hone : F64.one.natAbs = 2 ^ 1074 := Int.natAbs_pow 2 1074
  have hscaled : ∀ k : Nat, k * 2 ^ 1074 ≤ maxSafeInteger * 2 ^ 1074 ↔ k ≤ maxSafeInteger := fun k =>
    Nat.mul_le_mul_right_iff (Nat.two_pow_pos _)
  cases n with
  | posInt u =>
    show decide (u.1 ≤ maxSafeInteger) = true ↔ ((u.1 : Int) * F64.one).natAbs ≤ _
    rw [decide_eq_true_iff, Int.natAbs_mul, hone, Int.natAbs_natCast, hscaled]
  | negInt m =>
    show decide (m.1 + 1 ≤ maxSafeInteger) = true ↔ (-(((m.1 : Int) + 1) * F64.one)).natAbs ≤ _
    have hcast : ((m.1 : Int) + 1).natAbs = m.1 + 1 := by omega
    rw [decide_eq_true_iff, Int.natAbs_neg, Int.natAbs_mul, hone, hcast, hscaled]
  | float f => exact decide_eq_true_iff

theorem numbersOk_iff (v : Value) : numbersOk v = true ↔ v.All (fun _ => True) Within := by
  induction v using Json.ind with
  | number n => exact inRange_iff n
  | array items ih =>
    rw [numbersOk_array, Json.all_array]
    exact forall₂_congr ih
  | object members ih =>
    rw [numbersOk_object, Json.all_object]
    exact forall₂_congr fun m hm => (ih m hm).trans ⟨fun h => ⟨trivial, h⟩, fun h => h.2⟩
  | _ => simp [numbersOk, Json.All]

theorem literalOk_iff (v : Value) : literalOk v = true ↔ IsLiteral v := by
  rw [literalOk, Bool.and_eq_true, decide_eq_true_iff, numbersOk_iff]
  exact ⟨fun h => ⟨h.2, h.1⟩, fun h => ⟨h.numbers, h.depth⟩⟩

theorem setOk_iff (items : List Value) : setOk (.array items) = true ↔
    items.length ≤ maxSetItems ∧ ∀ v ∈ items, IsLiteral v := by
  rw [setOk, Bool.and_eq_true, decide_eq_true_iff, List.all_eq_true]
  exact and_congr_right fun _ => forall₂_congr fun v _ => literalOk_iff v

variable {inAny : Bool} {name : String} {n : Nat} {map : List (String × Value)}

theorem orders_of_mem (h : name ∈ orderNames) : (opName name).orders = true := by
  revert name
  decide

/-- What the parser asks of an operand is what the grammar says. -/
theorem leafOk_iff (name : String) (operand : Value) : leafOk name operand = true ↔ IsOperand name operand := by
  constructor
  · intro h
    by_cases hname : name ∈ ["$eq", "$ne", "$in", "$nin", "$exists", "$prefix"]
    · simp only [List.mem_cons, List.not_mem_nil, or_false] at hname
      rcases hname with rfl | rfl | rfl | rfl | rfl | rfl
      · exact .eq ((literalOk_iff operand).mp h)
      · exact .ne ((literalOk_iff operand).mp h)
      all_goals cases operand <;> first | cases h | skip
      · obtain ⟨hlen, hitems⟩ := (setOk_iff _).mp h
        exact .inSet hlen hitems
      · obtain ⟨hlen, hitems⟩ := (setOk_iff _).mp h
        exact .nin hlen hitems
      · exact .existsIs _
      · exact .hasPrefix _
    · by_cases hbound : name ∈ orderNames
      · rw [leafOk_bound (orders_of_mem hbound)] at h
        cases operand with
        | number n => exact .number hbound ((inRange_iff n).mp h)
        | string s => exact .string s hbound
        | _ => cases h
      · simp only [orderNames, List.mem_cons, List.not_mem_nil, or_false, not_or] at hname hbound
        obtain ⟨h1, h2, h3, h4, h5, h6⟩ := hname
        obtain ⟨h7, h8, h9, h10⟩ := hbound
        unfold leafOk opName at h
        rw [if_neg h1, if_neg h2, if_neg h3, if_neg h4, if_neg h7, if_neg h8, if_neg h9, if_neg h10, if_neg h5,
          if_neg h6] at h
        split_ifs at h
  · intro h
    cases h with
    | eq h => exact (literalOk_iff operand).mpr h
    | ne h => exact (literalOk_iff operand).mpr h
    | inSet hlen h => exact (setOk_iff _).mpr ⟨hlen, h⟩
    | nin hlen h => exact (setOk_iff _).mpr ⟨hlen, h⟩
    | number hname h =>
      rw [leafOk_bound (orders_of_mem hname)]
      exact (inRange_iff _).mpr h
    | string s hname =>
      rw [leafOk_bound (orders_of_mem hname)]
      rfl
    | existsIs b => rfl
    | hasPrefix s => rfl

/-! ### Filters -/

mutual
/-- A filter is an object of clauses; `inAny` inside the operand of a `$any`. -/
inductive IsFilter : (inAny : Bool) → Value → Prop
  | object {inAny : Bool} {map : List (String × Value)} (h : ∀ m ∈ map, IsClause inAny m) :
      IsFilter inAny (.object map)
inductive IsClause : (inAny : Bool) → String × Value → Prop
  | and {inAny : Bool} {items : List Value} (hne : items ≠ []) (h : ∀ i ∈ items, IsFilter inAny i) :
      IsClause inAny ("$and", .array items)
  | or {inAny : Bool} {items : List Value} (hne : items ≠ []) (h : ∀ i ∈ items, IsFilter inAny i) :
      IsClause inAny ("$or", .array items)
  | not {inAny : Bool} {v : Value} (h : IsFilter inAny v) : IsClause inAny ("$not", v)
  | path {inAny : Bool} {key : String} {ops : List (String × Value)} (hpath : IsPath inAny key) (hne : ops ≠ [])
      (h : ∀ o ∈ ops, IsOperator o) : IsClause inAny (key, .object ops)
/-- A value operator; `$any` takes an object of such operators or a filter over `@`. -/
inductive IsOperator : String × Value → Prop
  | leaf {name : String} {operand : Value} (h : IsOperand name operand) : IsOperator (name, operand)
  | anyOperators {ops : List (String × Value)} (hne : ops ≠ []) (h : ∀ o ∈ ops, IsOperator o) :
      IsOperator ("$any", .object ops)
  | anyFilter {map : List (String × Value)} (h : IsFilter true (.object map)) : IsOperator ("$any", .object map)
end

mutual
/-- The top of a filter is one level. The members of `$or`, the operand of `$not` and that of `$any` are one deeper
than what holds them, the members of `$and` are not. -/
def filterDepth : Value → Nat
  | .object map => membersDepth map
  | _ => 1
def membersDepth : List (String × Value) → Nat
  | [] => 1
  | (key, value) :: rest =>
    max
      (match clauseKey key with
        | .and =>
          match value with
          | .array items => itemsDepth items
          | _ => 1
        | .or =>
          match value with
          | .array items => 1 + itemsDepth items
          | _ => 1
        | .not => 1 + filterDepth value
        | .path =>
          match value with
          | .object ops => opsDepth ops
          | _ => 1
        | _ => 1)
      (membersDepth rest)
def itemsDepth : List Value → Nat
  | [] => 1
  | j :: rest => max (filterDepth j) (itemsDepth rest)
def opsDepth : List (String × Value) → Nat
  | [] => 1
  | (name, operand) :: rest =>
    max
      (if opName name = .any then
        match operand with
        | .object map => if isOperatorObject map then 1 + opsDepth map else 1 + membersDepth map
        | _ => 1
      else 1)
      (opsDepth rest)
end

def clauseDepth (c : String × Value) : Nat :=
  match clauseKey c.1, c.2 with
  | .and, .array items => itemsDepth items
  | .or, .array items => 1 + itemsDepth items
  | .not, value => 1 + filterDepth value
  | .path, .object ops => opsDepth ops
  | _, _ => 1

def opDepth (o : String × Value) : Nat :=
  if opName o.1 = .any then
    match o.2 with
    | .object map => if isOperatorObject map then 1 + opsDepth map else 1 + filterDepth o.2
    | _ => 1
  else 1

theorem itemsDepth_le {items : List Value} :
    itemsDepth items ≤ n ↔ 1 ≤ n ∧ ∀ i ∈ items, filterDepth i ≤ n := by
  induction items with
  | nil => simp [itemsDepth]
  | cons j rest ih =>
    rw [itemsDepth, Nat.max_le, ih, List.forall_mem_cons]
    exact and_left_comm

theorem filterDepth_object_le :
    filterDepth (.object map) ≤ n ↔ 1 ≤ n ∧ ∀ m ∈ map, clauseDepth m ≤ n := by
  rw [filterDepth]
  induction map with
  | nil => simp [membersDepth]
  | cons m rest ih =>
    obtain ⟨key, value⟩ := m
    have hstep : membersDepth ((key, value) :: rest) = max (clauseDepth (key, value)) (membersDepth rest) := by
      cases value <;> simp only [membersDepth, clauseDepth] <;> cases clauseKey key <;> rfl
    rw [hstep, Nat.max_le, ih, List.forall_mem_cons]
    exact and_left_comm

theorem opsDepth_le {ops : List (String × Value)} :
    opsDepth ops ≤ n ↔ 1 ≤ n ∧ ∀ o ∈ ops, opDepth o ≤ n := by
  induction ops with
  | nil => simp [opsDepth]
  | cons o rest ih =>
    obtain ⟨name, operand⟩ := o
    have hstep : opsDepth ((name, operand) :: rest) = max (opDepth (name, operand)) (opsDepth rest) := by
      cases operand <;> simp only [opsDepth, opDepth, filterDepth]
    rw [hstep, Nat.max_le, ih, List.forall_mem_cons]
    exact and_left_comm

/-! ### Which key a member has -/

/-- The operators that take an operand, `$any` last. -/
def operatorNames : List String :=
  ["$eq", "$ne", "$in", "$nin", "$gt", "$gte", "$lt", "$lte", "$exists", "$prefix", "$any"]

theorem opName_other (h : name ∉ operatorNames) : opName name = .combinator ∨ opName name = .unknown := by
  simp only [operatorNames, List.mem_cons, List.not_mem_nil, or_false, not_or] at h
  obtain ⟨h1, h2, h3, h4, h5, h6, h7, h8, h9, h10, h11⟩ := h
  rw [opName, if_neg h1, if_neg h2, if_neg h3, if_neg h4, if_neg h5, if_neg h6, if_neg h7, if_neg h8, if_neg h9,
    if_neg h10, if_neg h11]
  split
  · exact .inl rfl
  · exact .inr rfl

theorem mem_operatorNames (h : isValueOperator name = true) : name ∈ operatorNames := by
  by_contra hother
  rw [isValueOperator] at h
  rcases opName_other hother with h' | h' <;> rw [h'] at h <;> cases h

theorem startsWithDollar_of_valueOperator (h : isValueOperator name = true) :
    startsWithDollar name = true := by
  have hall : ∀ name ∈ operatorNames, startsWithDollar name = true := by decide
  exact hall name (mem_operatorNames h)

theorem opName_any (h : opName name = .any) : name = "$any" := by
  have hall : ∀ name ∈ operatorNames, opName name = .any → name = "$any" := by decide
  exact hall name (mem_operatorNames (by rw [isValueOperator, h])) h

theorem startsWithDollar_of_isPath {key : String} (h : IsPath inAny key) :
    startsWithDollar key = false := by
  obtain ⟨root, keys, ⟨htext, hroot, -⟩, -⟩ := h
  have hhead : ∀ r ∈ rootNames inAny, (escapeKey r.toList).head? ≠ some '$' ∧ escapeKey r.toList ≠ [] := by
    cases inAny <;> decide
  obtain ⟨hne, hnil⟩ := hhead root hroot
  rw [startsWithDollar, htext, List.head?_append_of_ne_nil _ hnil]
  exact decide_eq_false hne

theorem isValueOperator_of_isPath {key : String} (h : IsPath inAny key) :
    isValueOperator key = false := by
  by_contra hv
  rw [Bool.not_eq_false] at hv
  exact Bool.false_ne_true ((startsWithDollar_of_isPath h).symm.trans (startsWithDollar_of_valueOperator hv))

/-- No path is one of the names that start with `$`. -/
theorem clauseKey_of_isPath {key : String} (h : IsPath inAny key) : clauseKey key = .path := by
  have hdollar := startsWithDollar_of_isPath h
  have hnot : ∀ name, startsWithDollar name = true → key ≠ name := by
    intro name hname hkey
    rw [hkey, hname] at hdollar
    cases hdollar
  rw [clauseKey, if_neg (hnot "$and" (by decide)), if_neg (hnot "$or" (by decide)), if_neg (hnot "$not" (by decide)),
    if_neg (by rw [isValueOperator_of_isPath h]; decide), if_neg (by rw [hdollar]; decide)]

theorem isValueOperator_of_isOperand {operand : Value} (h : IsOperand name operand) :
    isValueOperator name = true ∧ opName name ≠ .any := by
  have horder : ∀ name ∈ orderNames, isValueOperator name = true ∧ opName name ≠ .any := by decide
  cases h with
  | number hname _ => exact horder name hname
  | string s hname => exact horder name hname
  | _ => exact ⟨by decide, by decide⟩

theorem isValueOperator_of_isOperator {o : String × Value} (h : IsOperator o) : isValueOperator o.1 = true := by
  have hany : isValueOperator "$any" = true := by decide
  cases h with
  | leaf h => exact (isValueOperator_of_isOperand h).1
  | anyOperators _ _ => exact hany
  | anyFilter _ => exact hany

theorem isValueOperator_of_isClause {c : String × Value} (h : IsClause inAny c) :
    isValueOperator c.1 = false := by
  have hcombinator : ∀ key ∈ ["$and", "$or", "$not"], isValueOperator key = false := by decide
  cases h with
  | path hpath _ _ => exact isValueOperator_of_isPath hpath
  | _ => exact hcombinator _ (by simp)

/-- An object of operators is never a filter over the element, so the operand of `$any` is read in one way. -/
theorem isOperatorObject_of_isOperator {ops : List (String × Value)} (hne : ops ≠ [])
    (h : ∀ o ∈ ops, IsOperator o) : isOperatorObject ops = true := by
  rw [isOperatorObject, Bool.and_eq_true, Bool.not_eq_true', List.isEmpty_eq_false_iff, List.all_eq_true]
  exact ⟨hne, fun o ho => isValueOperator_of_isOperator (h o ho)⟩

theorem isOperatorObject_of_isFilter (h : IsFilter inAny (.object map)) : isOperatorObject map = false := by
  obtain ⟨hmap⟩ := h
  cases map with
  | nil => rfl
  | cons m rest =>
    rw [isOperatorObject, List.all_cons, isValueOperator_of_isClause (hmap m List.mem_cons_self)]
    rfl

theorem isFilter_object :
    IsFilter inAny (.object map) ↔ ∀ m ∈ map, IsClause inAny m :=
  ⟨fun ⟨h⟩ => h, .object⟩

/-- A clause by its key. -/
theorem isClause_iff (c : String × Value) : IsClause inAny c ↔
    match clauseKey c.1, c.2 with
    | .and, .array items => items ≠ [] ∧ ∀ i ∈ items, IsFilter inAny i
    | .or, .array items => items ≠ [] ∧ ∀ i ∈ items, IsFilter inAny i
    | .not, value => IsFilter inAny value
    | .path, .object ops => IsPath inAny c.1 ∧ ops ≠ [] ∧ ∀ o ∈ ops, IsOperator o
    | _, _ => False := by
  constructor
  · intro h
    cases h with
    | and hne h => exact ⟨hne, h⟩
    | or hne h => exact ⟨hne, h⟩
    | not h => exact h
    | path hpath hne h =>
      rw [clauseKey_of_isPath hpath]
      exact ⟨hpath, hne, h⟩
  · intro h
    obtain ⟨key, value⟩ := c
    cases hk : clauseKey key with
    | and =>
      obtain rfl := clauseKey_and_iff.mp hk
      cases value <;> simp only [hk] at h
      exact .and h.1 h.2
    | or =>
      obtain rfl := clauseKey_or hk
      cases value <;> simp only [hk] at h
      exact .or h.1 h.2
    | not =>
      obtain rfl := clauseKey_not hk
      simp only [hk] at h
      exact .not h
    | path =>
      cases value <;> simp only [hk] at h
      exact .path h.1 h.2.1 h.2.2
    | _ => simp only [hk] at h

theorem isOperator_iff (o : String × Value) : IsOperator o ↔
    if opName o.1 = .any then
      match o.2 with
      | .object map => if isOperatorObject map then ∀ o ∈ map, IsOperator o else IsFilter true (.object map)
      | _ => False
    else IsOperand o.1 o.2 := by
  constructor
  · intro h
    cases h with
    | leaf h =>
      rw [if_neg (isValueOperator_of_isOperand h).2]
      exact h
    | anyOperators hne h =>
      show if isOperatorObject _ = true then _ else _
      rwa [if_pos (isOperatorObject_of_isOperator hne h)]
    | anyFilter h =>
      show if isOperatorObject _ = true then _ else _
      rwa [if_neg (by rw [isOperatorObject_of_isFilter h]; decide)]
  · intro h
    obtain ⟨name, operand⟩ := o
    by_cases hany : opName name = .any
    · obtain rfl := opName_any hany
      rw [if_pos hany] at h
      cases operand with
      | object map =>
        by_cases hops : isOperatorObject map = true
        · refine .anyOperators ?_ (by simpa only [if_pos hops] using h)
          rintro rfl
          exact absurd hops (by decide)
        · exact .anyFilter (by simpa only [if_neg hops] using h)
      | _ => exact h.elim
    · rw [if_neg hany] at h
      exact .leaf h

/-! ### What is valid is what is a filter -/

/-- What the induction says of a filter. -/
def Described (v : Value) : Prop :=
  ∀ n inAny, filterOk n inAny v = true ↔ IsFilter inAny v ∧ filterDepth v ≤ n

def OpsDescribed (ops : List (String × Value)) : Prop :=
  ∀ n, n ≠ 0 → (opsOk n ops = true ↔ (∀ o ∈ ops, IsOperator o) ∧ opsDepth ops ≤ n)

theorem forall_and_le {α : Type} {l : List α} {p : α → Prop} {f : α → Nat} :
    (∀ x ∈ l, p x ∧ f x ≤ n) ↔ (∀ x ∈ l, p x) ∧ ∀ x ∈ l, f x ≤ n :=
  ⟨fun h => ⟨fun x hx => (h x hx).1, fun x hx => (h x hx).2⟩, fun h x hx => ⟨h.1 x hx, h.2 x hx⟩⟩

/-- Members of `$and` and `$or` are one filter each. -/
theorem items_described {items : List Value} (h : ∀ i ∈ items, Described i) (n : Nat) (inAny : Bool) :
    (!items.isEmpty && items.all (filterOk n inAny)) = true ↔
      (items ≠ [] ∧ ∀ i ∈ items, IsFilter inAny i) ∧ ∀ i ∈ items, filterDepth i ≤ n := by
  rw [Bool.and_eq_true, Bool.not_eq_true', List.isEmpty_eq_false_iff, List.all_eq_true, and_assoc, ← forall_and_le]
  exact and_congr_right fun _ => forall₂_congr fun i hi => h i hi n inAny

theorem filterDepth_pos (v : Value) : 1 ≤ filterDepth v := by
  cases v with
  | object map => exact (filterDepth_object_le.mp (Nat.le_refl _)).1
  | _ => exact Nat.le_refl 1

theorem one_add_le {k : Nat} (hk : 1 ≤ k) : 1 + k ≤ n ↔ k ≤ n - 1 := by
  omega

theorem le_of_items {items : List Value} (hne : items ≠ []) :
    1 + itemsDepth items ≤ n ↔ ∀ i ∈ items, filterDepth i ≤ n - 1 := by
  have hpos : 1 ≤ itemsDepth items := (itemsDepth_le.mp (Nat.le_refl _)).1
  rw [one_add_le hpos, itemsDepth_le]
  refine ⟨fun h => h.2, fun h => ⟨?_, h⟩⟩
  obtain ⟨i, hi⟩ := List.exists_mem_of_ne_nil items hne
  exact (filterDepth_pos i).trans (h i hi)

/-- A clause of a filter with `n` depths left. -/
theorem clause_described (hn : n ≠ 0) (inAny : Bool) (c : String × Value) (hfilter : Described c.2)
    (hops : ∀ ops, c.2 = .object ops → OpsDescribed ops)
    (hitems : ∀ items, c.2 = .array items → ∀ i ∈ items, Described i) :
    clauseOk n inAny c = true ↔ IsClause inAny c ∧ clauseDepth c ≤ n := by
  have hone : 1 ≤ n := Nat.one_le_iff_ne_zero.mpr hn
  obtain ⟨key, value⟩ := c
  rw [isClause_iff]
  unfold clauseOk clauseDepth
  cases hk : clauseKey key with
  | and =>
    cases value with
    | array items =>
      simp only [items_described (hitems items rfl), itemsDepth_le, hone, true_and]
    | _ => simp
  | or =>
    cases value with
    | array items =>
      simp only [items_described (hitems items rfl)]
      exact and_congr_right fun h => (le_of_items h.1).symm
    | _ => simp
  | not =>
    simp only [hfilter (n - 1) inAny]
    rw [one_add_le (filterDepth_pos value)]
  | path =>
    cases value with
    | object ops =>
      have hdollar : (∀ o ∈ ops, IsOperator o) → ops.all (fun m => startsWithDollar m.1) = true := by
        intro h
        rw [List.all_eq_true]
        exact fun o ho => startsWithDollar_of_valueOperator (isValueOperator_of_isOperator (h o ho))
      simp only [Bool.and_eq_true, pathOk_iff, Bool.not_eq_true', List.isEmpty_eq_false_iff, hops ops rfl n hn]
      exact ⟨fun ⟨⟨⟨hpath, hne⟩, _⟩, hall, hdepth⟩ => ⟨⟨hpath, hne, hall⟩, hdepth⟩,
        fun ⟨⟨hpath, hne, hall⟩, hdepth⟩ => ⟨⟨⟨hpath, hne⟩, hdollar hall⟩, hall, hdepth⟩⟩
    | _ => simp
  | _ => simp

theorem op_described (hn : n ≠ 0) (o : String × Value) (hfilter : Described o.2)
    (hops : ∀ ops, o.2 = .object ops → OpsDescribed ops) :
    opOk n o = true ↔ IsOperator o ∧ opDepth o ≤ n := by
  have hone : 1 ≤ n := Nat.one_le_iff_ne_zero.mpr hn
  obtain ⟨name, operand⟩ := o
  rw [isOperator_iff]
  unfold opOk opDepth
  by_cases hany : opName name = .any
  · simp only [if_pos hany]
    cases operand with
    | object map =>
      by_cases hobject : isOperatorObject map = true
      · have hpos : 1 ≤ opsDepth map := (opsDepth_le.mp (Nat.le_refl _)).1
        simp only [if_pos hobject, Bool.and_eq_true, decide_eq_true_iff]
        rw [one_add_le hpos]
        constructor
        · rintro ⟨hleft, h⟩
          exact (hops map rfl (n - 1) hleft).mp h
        · rintro ⟨hall, hdepth⟩
          have hleft : n - 1 ≠ 0 := Nat.one_le_iff_ne_zero.mp (hpos.trans hdepth)
          exact ⟨hleft, (hops map rfl (n - 1) hleft).mpr ⟨hall, hdepth⟩⟩
      · simp only [if_neg hobject]
        rw [one_add_le (filterDepth_pos _)]
        exact hfilter (n - 1) true
    | _ => simp
  · simp only [if_neg hany, leafOk_iff, hone, and_true]

theorem described : (∀ v, Described v) ∧ ∀ ops, OpsDescribed ops := by
  refine filter_induct ?_ ?_
  · intro map ih
    constructor
    · intro n inAny
      rw [filterOk_object, Bool.and_eq_true, decide_eq_true_iff, filterDepth_object_le, isFilter_object,
        List.all_eq_true, Nat.one_le_iff_ne_zero]
      constructor
      · rintro ⟨hn, h⟩
        have hclauses := forall_and_le.mp fun m hm =>
          (clause_described hn inAny m (ih m hm).1 (ih m hm).2.1 (ih m hm).2.2).mp (h m hm)
        exact ⟨hclauses.1, hn, hclauses.2⟩
      · rintro ⟨hclauses, hn, hdepth⟩
        exact ⟨hn, fun m hm => (clause_described hn inAny m (ih m hm).1 (ih m hm).2.1 (ih m hm).2.2).mpr
          ⟨hclauses m hm, hdepth m hm⟩⟩
    · intro n hn
      rw [opsOk_eq, List.all_eq_true, opsDepth_le, and_iff_right (Nat.one_le_iff_ne_zero.mpr hn), ← forall_and_le]
      exact forall₂_congr fun o ho => op_described hn o (ih o ho).1 (ih o ho).2.1
  · intro v hv n inAny
    have hno : ¬ IsFilter inAny v := by
      rintro ⟨h⟩
      exact hv _ rfl
    have hbad : filterOk n inAny v = false := by
      cases v with
      | object map => exact absurd rfl (hv map)
      | _ => simp [filterOk]
    simp [hbad, hno]

theorem filterOk_iff (n : Nat) (inAny : Bool) (v : Value) :
    filterOk n inAny v = true ↔ IsFilter inAny v ∧ filterDepth v ≤ n :=
  described.1 v n inAny

end Iii.Filter

namespace Iii
open Filter

variable (ft : FloatText)

/-- **`parse` accepts exactly the language.** A value is taken when its encoding is short enough, it does not nest too
far, it is a filter by the grammar, and it is within the depth and the nodes of a filter; the walk that measures the
encoding and the one that measures the nesting say what their definitions by recursion say. -/
theorem Filter.parse_accepts (src : Value) :
    ((∃ f, Filter.parse ft src = .ok f) ↔
      encodedSize ft src ≤ maxEncodedBytes ∧ src.depth ≤ maxJsonDepth ∧ IsFilter false src ∧
        filterDepth src ≤ maxDepth ∧ filterNodes src ≤ maxNodes) ∧
    (ensureEncodedSize ft src = .ok () ↔ encodedSize ft src ≤ maxEncodedBytes) ∧
    (ensureJsonDepth src = .ok () ↔ src.depth ≤ maxJsonDepth) := by
  refine ⟨?_, ensureEncodedSize_ok ft src, ensureJsonDepth_ok src⟩
  constructor
  · rintro ⟨f, hf⟩
    have hadm := (Filter.of_parse ft hf).admissible
    obtain ⟨hfilter, hdepth⟩ := (filterOk_iff maxDepth false src).mp hadm.valid
    exact ⟨Filter.size_of_parse ft hf, hadm.nesting, hfilter, hdepth, hadm.nodes⟩
  · rintro ⟨hsize, hnesting, hfilter, hdepth, hnodes⟩
    have hadm : Admissible src := ⟨hnesting, (filterOk_iff maxDepth false src).mpr ⟨hfilter, hdepth⟩, hnodes⟩
    obtain ⟨p, hp⟩ : ∃ p, Parsed.parse ft src .enforce = .ok p := parsed_of_admissible ft hadm fun _ => hsize
    exact ⟨Filter.fromParsed p, by rw [Filter.parse, hp]; rfl⟩

end Iii
