import Iii.Rbac.Filter

/-! Whether a session may call a function of a namespace (`is_function_allowed_ref`, `workers/worker/rbac_config.rs`).

What forbids is asked first and holds everywhere. What allows is asked in turn: the grants of the namespace, in the
default namespace the ids that the auth function allowed, the functions every session needs, and the rules that expose
functions of the namespace. So the answer for a namespace depends on that namespace's grants and rules only, and more
of what allows does not refuse what was allowed (`namespaces_isolated`).

The grants are parsed one after another until one matches. Where parsing panics, the decision does, and reading a rule
does; `grants_total` says where that is. -/
namespace Iii.Rbac
open Lib
open Bindings (defaultNamespace)

structure RbacConfig where
  exposeFunctions : List FunctionFilter

structure Function where
  metadata : Option Value

def INFRASTRUCTURE_FUNCTIONS : List String :=
  ["engine::channels::create", "engine::workers::register", "engine::log::info", "engine::log::warn",
    "engine::log::error", "engine::log::debug", "engine::log::trace", "engine::baggage::get", "engine::baggage::set",
    "engine::baggage::get_all"]

def grantMatches (grant functionId : String) : Except Panic Bool := do
  let raw := (← parseMatchPattern grant).getD grant
  return raw = functionId || (raw.toList.contains '*' && WildcardPattern.matches ⟨raw⟩ functionId)

/-- A rule of the configuration exposes the function. Without a configuration everything is exposed. -/
def exposed (functionId ns : String) (config : Option RbacConfig) (function : Option Function) : Bool :=
  match config with
  | some config => config.exposeFunctions.any (·.matches functionId ns (function.bind (·.metadata)))
  | none => true

/-- What is asked once no grant has answered. -/
def allowedOtherwise (functionId ns : String) (config : Option RbacConfig) (allowedFunctions : List String)
    (function : Option Function) : Bool :=
  if ns = defaultNamespace && allowedFunctions.any (· = functionId) then true
  else if INFRASTRUCTURE_FUNCTIONS.contains functionId then true
  else exposed functionId ns config function

def isFunctionAllowedRef (functionId ns : String) (config : Option RbacConfig)
    (sessionNamespaces : SortedMap String (List String)) (allowedFunctions forbiddenFunctions : List String)
    (function : Option Function) : Except Panic Bool :=
  if forbiddenFunctions.any (· = functionId) then .ok false
  else do
    let granted ← ((sessionNamespaces.get? ns).getD []).anyM fun grant => grantMatches grant functionId
    return granted || allowedOtherwise functionId ns config allowedFunctions function

/-! ### Grants -/

/-- The grant names the id, or is a pattern that matches it; the wrapping is not part of the pattern. -/
def Covers (grant functionId : String) : Prop :=
  ∃ raw : List Char, (Wraps grant raw ∨ (∀ pattern, ¬ Wraps grant pattern) ∧ raw = grant.toList) ∧
    (raw = functionId.toList ∨ '*' ∈ raw ∧ Glob (raw.splitOn '*') functionId.toList)

theorem raw_covers_iff (raw functionId : String) :
    (raw = functionId || (raw.toList.contains '*' && WildcardPattern.matches ⟨raw⟩ functionId)) = true ↔
      raw.toList = functionId.toList ∨ '*' ∈ raw.toList ∧ Glob (raw.toList.splitOn '*') functionId.toList := by
  simp only [WildcardPattern.matches, Bool.or_eq_true, Bool.and_eq_true, decide_eq_true_eq, List.contains_iff_mem,
    wildcardMatch_iff, String.toList_inj]

theorem grantMatches_panics {grant : String} (h : Overlaps grant) (functionId : String) :
    grantMatches grant functionId = .error .slice := by
  rw [grantMatches, parseMatchPattern_overlaps h]
  rfl

theorem grantMatches_eq {grant : String} (h : ¬ Overlaps grant) (functionId : String) :
    ∃ covers, grantMatches grant functionId = .ok covers ∧ (covers = true ↔ Covers grant functionId) := by
  by_cases hwraps : ∃ pattern, Wraps grant pattern
  · obtain ⟨pattern, hpattern⟩ := hwraps
    rw [grantMatches, parseMatchPattern_wraps hpattern]
    refine ⟨_, rfl, (raw_covers_iff _ _).trans ?_⟩
    rw [Option.getD_some, String.toList_ofList]
    constructor
    · exact fun hraw => ⟨pattern, .inl hpattern, hraw⟩
    · rintro ⟨raw, hraw | ⟨hbare, -⟩, hcovers⟩
      · rwa [hpattern.unique hraw]
      · exact absurd hpattern (hbare pattern)
  · have hbare := not_exists.mp hwraps
    rw [grantMatches, parseMatchPattern_bare hbare h]
    refine ⟨_, rfl, (raw_covers_iff _ _).trans ?_⟩
    rw [Option.getD_none]
    constructor
    · exact fun hraw => ⟨grant.toList, .inr ⟨hbare, rfl⟩, hraw⟩
    · rintro ⟨raw, hraw | ⟨-, rfl⟩, hcovers⟩
      · exact absurd hraw (hbare raw)
      · exact hcovers

section Any
variable {functionId : String} {grants grants' : List String}

/-- One of the grants panics, and none before it covers the id. -/
def ReachesOverlap (grants : List String) (functionId : String) : Prop :=
  ∃ front grant rest, grants = front ++ grant :: rest ∧ (∀ g ∈ front, ¬ Covers g functionId) ∧ Overlaps grant

/-- The grants are asked in turn. -/
theorem anyM_cons (grant : String) (grants : List String) :
    (grant :: grants).anyM (grantMatches · functionId) =
      (grantMatches grant functionId >>= fun covers =>
        if covers then pure true else grants.anyM (grantMatches · functionId)) := by
  show (grantMatches grant functionId >>= _) = _
  congr 1
  funext covers
  cases covers <;> rfl

theorem anyM_panics_iff :
    grants.anyM (grantMatches · functionId) = .error .slice ↔ ReachesOverlap grants functionId := by
  induction grants with
  | nil => simp [ReachesOverlap, List.anyM, pure, Except.pure]
  | cons grant grants ih =>
    rw [anyM_cons]
    by_cases hoverlaps : Overlaps grant
    · rw [grantMatches_panics hoverlaps]
      exact ⟨fun _ => ⟨[], grant, grants, rfl, (fun _ h => nomatch h), hoverlaps⟩, fun _ => rfl⟩
    · obtain ⟨covers, hok, hcovers⟩ := grantMatches_eq hoverlaps functionId
      rw [hok]
      have hfirst : ReachesOverlap (grant :: grants) functionId ↔
          ¬ Covers grant functionId ∧ ReachesOverlap grants functionId := by
        constructor
        · rintro ⟨front, bad, rest, hsplit, hfront, hbad⟩
          obtain _ | ⟨first, front⟩ := front
          · cases hsplit
            exact absurd hbad hoverlaps
          · cases hsplit
            obtain ⟨hfirst, hfront⟩ := List.forall_mem_cons.mp hfront
            exact ⟨hfirst, front, bad, rest, rfl, hfront, hbad⟩
        · rintro ⟨hfirst, front, bad, rest, rfl, hfront, hbad⟩
          exact ⟨grant :: front, bad, rest, rfl, List.forall_mem_cons.mpr ⟨hfirst, hfront⟩, hbad⟩
      rw [hfirst, ← hcovers]
      cases covers with
      | true => exact ⟨(fun h => nomatch h), fun h => absurd rfl h.1⟩
      | false => exact ih.trans ⟨fun h => ⟨Bool.false_ne_true, h⟩, And.right⟩

/-- No grant answers exactly when each of them says so. -/
theorem anyM_eq_false_iff :
    grants.anyM (grantMatches · functionId) = .ok false ↔ ∀ g ∈ grants, grantMatches g functionId = .ok false := by
  induction grants with
  | nil => exact ⟨(fun _ _ h => nomatch h), fun _ => rfl⟩
  | cons grant grants ih =>
    rw [anyM_cons, List.forall_mem_cons, ← ih]
    cases grantMatches grant functionId with
    | error p =>
      constructor
      · intro h
        cases h
      · rintro ⟨h, -⟩
        cases h
    | ok covers =>
      cases covers with
      | true =>
        constructor
        · intro h
          cases h
        · rintro ⟨h, -⟩
          cases h
      | false => exact ⟨fun h => ⟨rfl, h⟩, And.right⟩

end Any

/-! ### Decisions -/

/-- The rules for a namespace. -/
def rulesIn (ns : String) (config : Option RbacConfig) : Option (List FunctionFilter) :=
  config.map fun config => config.exposeFunctions.filter (·.scope = ns)

theorem any_matches_filter (rules : List FunctionFilter) (functionId ns : String) (metadata : Option Value) :
    rules.any (·.matches functionId ns metadata) =
      (rules.filter (·.scope = ns)).any (·.matches functionId ns metadata) := by
  rw [List.any_filter]
  congr 1
  funext rule
  by_cases h : rule.scope = ns
  · simp [h]
  · simp [FunctionFilter.matches, h]

variable {config' config : Option RbacConfig}

theorem exposed_congr {functionId ns : String} (hrules : rulesIn ns config = rulesIn ns config')
    (function : Option Function) :
    exposed functionId ns config function = exposed functionId ns config' function := by
  have hin : ∀ config, exposed functionId ns config function =
      ((rulesIn ns config).map (·.any (·.matches functionId ns (function.bind (·.metadata))))).getD true := by
    intro config
    cases config with
    | none => rfl
    | some config => exact any_matches_filter _ _ _ _
  rw [hin, hin, hrules]

theorem allowedOtherwise_congr {functionId ns : String} {allowed allowed' : List String}
    (hrules : rulesIn ns config = rulesIn ns config') (hallowed : ns = defaultNamespace → allowed = allowed')
    (function : Option Function) :
    allowedOtherwise functionId ns config allowed function = allowedOtherwise functionId ns config' allowed' function := by
  have hdefault : (ns = defaultNamespace && allowed.any (· = functionId)) =
      (ns = defaultNamespace && allowed'.any (· = functionId)) := by
    by_cases h : ns = defaultNamespace
    · rw [hallowed h]
    · simp [h]
  unfold allowedOtherwise
  rw [hdefault, exposed_congr hrules]

/-- More ids and more rules allow no less. -/
theorem allowedOtherwise_mono {functionId ns : String} {allowed allowed' : List String}
    (hrules : config = config' ∨ ∃ c c', config = some c ∧ config' = some c' ∧ c.exposeFunctions ⊆ c'.exposeFunctions)
    (hallowed : allowed ⊆ allowed') {function : Option Function}
    (h : allowedOtherwise functionId ns config allowed function = true) :
    allowedOtherwise functionId ns config' allowed' function = true := by
  unfold allowedOtherwise at h ⊢
  split
  · rfl
  · next hnot =>
    have hnot' : ¬ (ns = defaultNamespace && allowed.any (· = functionId)) = true := by
      simp only [Bool.and_eq_true, decide_eq_true_eq, List.any_eq_true, not_and, not_exists] at hnot ⊢
      exact fun hns f hf => hnot hns f (hallowed hf)
    rw [if_neg hnot'] at h
    split
    · rfl
    · next hinfra =>
      rw [if_neg hinfra] at h
      rcases hrules with rfl | ⟨c, c', rfl, rfl, hsub⟩
      · exact h
      · obtain ⟨rule, hrule, hmatches⟩ := List.any_eq_true.mp h
        exact List.any_eq_true.mpr ⟨rule, hsub hrule, hmatches⟩

section Decision
variable {functionId ns : String} {config config' : Option RbacConfig}
variable {sessionNamespaces sessionNamespaces' : SortedMap String (List String)}
variable {allowedFunctions allowedFunctions' forbiddenFunctions : List String} {function : Option Function}

theorem isFunctionAllowedRef_forbidden (h : functionId ∈ forbiddenFunctions) :
    isFunctionAllowedRef functionId ns config sessionNamespaces allowedFunctions forbiddenFunctions function = .ok false := by
  rw [isFunctionAllowedRef, if_pos]
  exact List.any_eq_true.mpr ⟨functionId, h, decide_eq_true rfl⟩

theorem isFunctionAllowedRef_eq (h : functionId ∉ forbiddenFunctions) :
    isFunctionAllowedRef functionId ns config sessionNamespaces allowedFunctions forbiddenFunctions function =
      (((sessionNamespaces.get? ns).getD []).anyM (grantMatches · functionId)).map fun granted =>
        granted || allowedOtherwise functionId ns config allowedFunctions function := by
  rw [isFunctionAllowedRef, if_neg]
  · cases ((sessionNamespaces.get? ns).getD []).anyM (grantMatches · functionId) <;> rfl
  · simpa using h

/-- A call is refused when it is forbidden, or neither a grant nor anything else allows it. -/
theorem isFunctionAllowedRef_eq_false_iff :
    isFunctionAllowedRef functionId ns config sessionNamespaces allowedFunctions forbiddenFunctions function = .ok false ↔
      functionId ∈ forbiddenFunctions ∨
        (∀ g ∈ (sessionNamespaces.get? ns).getD [], grantMatches g functionId = .ok false) ∧
          allowedOtherwise functionId ns config allowedFunctions function = false := by
  by_cases h : functionId ∈ forbiddenFunctions
  · exact ⟨fun _ => .inl h, fun _ => isFunctionAllowedRef_forbidden h⟩
  · rw [isFunctionAllowedRef_eq h, map_eq_ok, ← anyM_eq_false_iff, or_iff_right h]
    constructor
    · rintro ⟨granted, hgranted, hfalse⟩
      obtain ⟨rfl, hother⟩ := Bool.or_eq_false_iff.mp hfalse
      exact ⟨hgranted, hother⟩
    · exact fun ⟨hgranted, hother⟩ => ⟨false, hgranted, hother⟩

theorem isFunctionAllowedRef_panics_iff :
    isFunctionAllowedRef functionId ns config sessionNamespaces allowedFunctions forbiddenFunctions function = .error .slice ↔
      functionId ∉ forbiddenFunctions ∧ ReachesOverlap ((sessionNamespaces.get? ns).getD []) functionId := by
  by_cases h : functionId ∈ forbiddenFunctions
  · rw [isFunctionAllowedRef_forbidden h]
    exact ⟨(fun h' => nomatch h'), fun h' => absurd h h'.1⟩
  · rw [isFunctionAllowedRef_eq h, ← anyM_panics_iff, and_iff_right h]
    cases ((sessionNamespaces.get? ns).getD []).anyM (grantMatches · functionId) with
    | error p => exact ⟨fun h' => congrArg _ (Except.error.inj h'), fun h' => congrArg _ (Except.error.inj h')⟩
    | ok granted => exact ⟨(fun h' => nomatch h'), (fun h' => nomatch h')⟩

theorem returns_iff {α : Type} {x : Except Panic α} : (∃ a, x = .ok a) ↔ x ≠ .error .slice := by
  cases x with
  | error p =>
    cases p
    exact ⟨(fun ⟨_, h⟩ => nomatch h), fun h => absurd rfl h⟩
  | ok a => exact ⟨(fun _ h => nomatch h), fun _ => ⟨a, rfl⟩⟩

/-- Everything that allows is still there. -/
theorem not_refused_of_more (hrules : config = config' ∨
      ∃ c c', config = some c ∧ config' = some c' ∧ c.exposeFunctions ⊆ c'.exposeFunctions)
    (hgrants : (sessionNamespaces.get? ns).getD [] ⊆ (sessionNamespaces'.get? ns).getD [])
    (hallowed : allowedFunctions ⊆ allowedFunctions')
    (h : isFunctionAllowedRef functionId ns config sessionNamespaces allowedFunctions forbiddenFunctions function = .ok true) :
    isFunctionAllowedRef functionId ns config' sessionNamespaces' allowedFunctions' forbiddenFunctions function ≠ .ok false := by
  intro hrefused
  have hold : isFunctionAllowedRef functionId ns config sessionNamespaces allowedFunctions forbiddenFunctions function =
      .ok false := by
    rcases isFunctionAllowedRef_eq_false_iff.mp hrefused with hforbidden | ⟨hnone, hother⟩
    · exact isFunctionAllowedRef_forbidden hforbidden
    · refine isFunctionAllowedRef_eq_false_iff.mpr (.inr ⟨fun g hg => hnone g (hgrants hg), ?_⟩)
      refine Bool.eq_false_iff.mpr fun htrue => ?_
      rw [allowedOtherwise_mono hrules hallowed htrue] at hother
      cases hother
  cases h.symm.trans hold

end Decision

/-- What one namespace grants and exposes is nothing to another; what is forbidden is refused everywhere; and more
grants, ids and rules never refuse a call that was allowed. A grant that panics gives no answer at all: where no grant
of the namespace does, the call stays allowed. -/
theorem namespaces_isolated (functionId ns : String) (forbiddenFunctions : List String) (function : Option Function) :
    (∀ config config' sessionNamespaces sessionNamespaces' allowedFunctions allowedFunctions',
      rulesIn ns config = rulesIn ns config' → sessionNamespaces.get? ns = sessionNamespaces'.get? ns →
      (ns = defaultNamespace → allowedFunctions = allowedFunctions') →
        isFunctionAllowedRef functionId ns config sessionNamespaces allowedFunctions forbiddenFunctions function =
          isFunctionAllowedRef functionId ns config' sessionNamespaces' allowedFunctions' forbiddenFunctions function) ∧
    (functionId ∈ forbiddenFunctions → ∀ config sessionNamespaces allowedFunctions,
      isFunctionAllowedRef functionId ns config sessionNamespaces allowedFunctions forbiddenFunctions function =
        .ok false) ∧
    ∀ config config' sessionNamespaces sessionNamespaces' allowedFunctions allowedFunctions',
      (config = config' ∨ ∃ c c', config = some c ∧ config' = some c' ∧ c.exposeFunctions ⊆ c'.exposeFunctions) →
      (∀ name grants, sessionNamespaces.get? name = some grants →
        ∃ grants', sessionNamespaces'.get? name = some grants' ∧ grants ⊆ grants') →
      allowedFunctions ⊆ allowedFunctions' →
      isFunctionAllowedRef functionId ns config sessionNamespaces allowedFunctions forbiddenFunctions function = .ok true →
        isFunctionAllowedRef functionId ns config' sessionNamespaces' allowedFunctions' forbiddenFunctions function ≠
            .ok false ∧
          ((∀ g ∈ (sessionNamespaces'.get? ns).getD [], ¬ Overlaps g) →
            isFunctionAllowedRef functionId ns config' sessionNamespaces' allowedFunctions' forbiddenFunctions function =
              .ok true) := by
  refine ⟨fun config config' sessions sessions' allowed allowed' hrules hgrants hallowed => ?_,
    fun h _ _ _ => isFunctionAllowedRef_forbidden h,
    fun config config' sessions sessions' allowed allowed' hrules hgrants hallowed h => ?_⟩
  · rw [isFunctionAllowedRef, hgrants, allowedOtherwise_congr hrules hallowed]
    rfl
  · have hsub : (sessions.get? ns).getD [] ⊆ (sessions'.get? ns).getD [] := by
      cases hget : sessions.get? ns with
      | none => exact List.nil_subset _
      | some grants =>
        obtain ⟨grants', hget', hsub⟩ := hgrants ns grants hget
        rwa [hget']
    have hnot := not_refused_of_more hrules hsub hallowed h
    refine ⟨hnot, fun hclean => ?_⟩
    have hreturns : ∃ b, isFunctionAllowedRef functionId ns config' sessions' allowed' forbiddenFunctions function =
        .ok b := by
      refine returns_iff.mpr fun hpanics => ?_
      obtain ⟨-, front, grant, rest, hsplit, -, hgrant⟩ := isFunctionAllowedRef_panics_iff.mp hpanics
      exact hclean grant (by rw [hsplit]; simp) hgrant
    obtain ⟨b, hb⟩ := hreturns
    cases b with
    | false => exact absurd hb hnot
    | true => exact hb

/-- The grants of another tenant, added to a session that has one of its own. -/
theorem namespaces_isolated_orders :
    isFunctionAllowedRef "svc::get" "orders" (some ⟨[]⟩) (.ofList [("orders", ["match('svc::*')"])]) [] [] none =
      isFunctionAllowedRef "svc::get" "orders" (some ⟨[⟨.matchPattern ⟨"*"⟩, none⟩]⟩)
        (.ofList [("orders", ["match('svc::*')"]), ("billing", ["match(\")"])]) ["svc::get"] [] none ∧
    isFunctionAllowedRef "svc::get" "orders" (some ⟨[]⟩) (.ofList [("orders", ["match('svc::*')"])]) [] ["svc::get"] none =
      .ok false ∧
    isFunctionAllowedRef "svc::get" "orders" (some ⟨[⟨.matchPattern ⟨"svc::*"⟩, some "orders"⟩]⟩)
      (.ofList [("orders", ["svc::set"])]) [] [] none = .ok true :=
  ⟨(namespaces_isolated "svc::get" "orders" [] none).1 _ _ _ _ _ _ rfl rfl (fun h => absurd h (by decide)),
    (namespaces_isolated "svc::get" "orders" ["svc::get"] none).2.1 (by decide) _ _ _,
    ((namespaces_isolated "svc::get" "orders" [] none).2.2 (some ⟨[⟨.matchPattern ⟨"svc::*"⟩, some "orders"⟩]⟩) _ .empty
      (.ofList [("orders", ["svc::set"])]) [] [] (.inl rfl) (fun _ _ h => nomatch h) (List.nil_subset _) rfl).2
      (by decide)⟩

/-- Parsing returns, and exactly what the text wraps, except where the text overlaps; and so do the functions that
parse, except where they come to such a text. -/
theorem grants_total (s functionId ns : String) (config : Option RbacConfig)
    (sessionNamespaces : SortedMap String (List String)) (allowedFunctions forbiddenFunctions : List String)
    (function : Option Function) (j : Value) :
    (((∃ parsed, parseMatchPattern s = .ok parsed) ∧
      ∀ pattern, parseMatchPattern s = .ok (some (String.ofList pattern)) ↔ Wraps s pattern) ↔ ¬ Overlaps s) ∧
    ((∃ covers, grantMatches s functionId = .ok covers) ↔ ¬ Overlaps s) ∧
    ((∃ allowed, isFunctionAllowedRef functionId ns config sessionNamespaces allowedFunctions forbiddenFunctions
        function = .ok allowed) ↔
      ¬ (functionId ∉ forbiddenFunctions ∧ ReachesOverlap ((sessionNamespaces.get? ns).getD []) functionId)) ∧
    (¬ Panics (FunctionFilter.deserialize j) ↔ ¬ ReadsOverlap j) := by
  refine ⟨?_, ?_, ?_, not_congr (deserialize_panics_iff j)⟩
  · constructor
    · rintro ⟨⟨parsed, hparsed⟩, -⟩ hoverlaps
      cases hparsed.symm.trans (parseMatchPattern_overlaps hoverlaps)
    · intro h
      rcases parseMatchPattern_eq s with ⟨hoverlaps, -⟩ | ⟨-, parsed, hparsed, hwraps⟩
      · exact absurd hoverlaps h
      · refine ⟨⟨parsed, hparsed⟩, fun pattern => ?_⟩
        rw [hparsed, ← hwraps, Except.ok.injEq]
  · constructor
    · rintro ⟨covers, hcovers⟩ hoverlaps
      cases hcovers.symm.trans (grantMatches_panics hoverlaps functionId)
    · intro h
      obtain ⟨covers, hcovers, -⟩ := grantMatches_eq h functionId
      exact ⟨covers, hcovers⟩
  · rw [returns_iff, ne_eq, isFunctionAllowedRef_panics_iff]

/-- The quote that begins the pattern of `match(")` is the one that ends it. -/
theorem overlap_panics :
    ¬ (∃ parsed, parseMatchPattern "match(\")" = .ok parsed) ∧
    ¬ (∃ covers, grantMatches "match(\")" "svc::get" = .ok covers) ∧
    ¬ (∃ allowed, isFunctionAllowedRef "svc::get" "orders" none (.ofList [("orders", ["match(\")"])]) [] [] none =
      .ok allowed) ∧
    Panics (FunctionFilter.deserialize (.string "match(\")")) := by
  refine ⟨?_, ?_, ?_, rfl⟩
  · rintro ⟨parsed, h⟩
    cases h
  · rintro ⟨covers, h⟩
    cases h
  · rintro ⟨allowed, h⟩
    cases h

end Iii.Rbac
