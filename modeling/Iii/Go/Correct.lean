import Iii.Go.Text

/-! `ParseNormalized` and the filter it returns, against the engine's.

`decodeJSON` is `encoding/json` with `UseNumber`; all that is used of it is that it
gives the value a text spells. -/
namespace Iii.Go
open Filter Sdk

/-! ### Filters -/

/-- A compiled `Filter`. `Roots` and `IsMatchAll` return the fields. -/
structure Filter where
  pred : Pred GoDoc GoValue
  roots : Roots
  matchAll : Bool

/-- `Matches`: outside `$any` there is no element. -/
def Filter.Matches (f : Filter) (doc : GoDoc) : Bool :=
  if f.matchAll then true else f.pred doc .null

/-- `compileValue` without the size limit. -/
def compileValue (v : GoValue) : Except Error Filter :=
  match v with
  | .object _ => do
    let (clauses, roots) ← compileClauses host v
    if clauses.isEmpty then return ⟨fun _ _ => true, {}, true⟩
    return ⟨andPred clauses, roots, false⟩
  | _ => .error (invalid (code.text "a filter must be a JSON object, found " ++ code.text (kind v)))

def ParseNormalized (decodeJSON : Units → Except Units GoValue) (data : Units) :
    Except Error Filter := do
  checkText data
  match decodeJSON data with
  | .ok v => compileValue v
  | .error e => .error (invalid (code.text "a filter must be JSON: " ++ e))

/-- `Map.Root`: the document as a map keyed by root name. -/
def Map (d : GoValue) : GoDoc := fun r =>
  match d with
  | .object map => Json.get? map (code.text (rootName r))
  | _ => none

/-! ### Agreement -/

theorem reads_map {dec : NumText → Num} {d : Src} (hd : Plain d) :
    Reads dec (Map (hostValue code dec d)) (rootsOf d) := by
  intro r _
  cases d with
  | object map =>
    rw [hostValue_object]
    refine ⟨Json.get?_map code.text_injective _ map (rootName r), ?_⟩
    intro v hv
    exact hd.member _ (Json.mem_of_get? hv)
  | array items =>
    rw [hostValue_array]
    exact ⟨rfl, by simp [rootsOf]⟩
  | _ => exact ⟨rfl, by simp [rootsOf]⟩

theorem compileValue_ok {f : Src} {g : Filter} (h : compileValue (decoded f) = .ok g) :
    ∃ clauses roots, compileClauses host (decoded f) = .ok (clauses, roots) ∧
      g = if clauses.isEmpty then ⟨fun _ _ => true, {}, true⟩ else ⟨andPred clauses, roots, false⟩ := by
  cases f with
  | object map =>
    rw [decoded, hostValue_object] at h ⊢
    simp only [compileValue] at h
    cases hc : compileClauses host (.object (hostMembers code .number map)) with
    | error e =>
      rw [hc] at h
      cases h
    | ok r =>
      obtain ⟨clauses, roots⟩ := r
      rw [hc] at h
      refine ⟨clauses, roots, rfl, ?_⟩
      simp only [bind, Except.bind, pure, Except.pure] at h
      split_ifs at h ⊢ <;> exact (Except.ok.inj h).symm
  | array items =>
    rw [decoded, hostValue_array] at h
    cases h
  | _ => cases h

theorem compileValue_isOk {f : Src} {r : List (Pred GoDoc GoValue) × Roots}
    (hobj : ∃ map, f = .object map) (h : compileClauses host (decoded f) = .ok r) :
    ∃ g, compileValue (decoded f) = .ok g := by
  obtain ⟨map, rfl⟩ := hobj
  rw [decoded, hostValue_object] at h ⊢
  simp only [compileValue, h, bind, Except.bind, pure, Except.pure]
  split_ifs
  · exact ⟨_, rfl⟩
  · exact ⟨_, rfl⟩

section Agree
variable (ft : FloatText) {decodeJSON : Units → Except Units GoValue} {text : List Char} {f : Src}

/-- A text is taken when it nests within bounds and what it spells compiles. -/
theorem parseNormalized_eq (ht : Spells text f)
    (hdecode : decodeJSON (code.encode text) = .ok (decoded f)) (g : Filter) :
    ParseNormalized decodeJSON (code.encode text) = .ok g ↔
      f.depth ≤ maxJsonDepth ∧ compileValue (decoded f) = .ok g := by
  rw [← checkText_ok ht, ParseNormalized, hdecode]
  cases checkText (code.encode text) with
  | error e => simp [bind, Except.bind]
  | ok u => simp [bind, Except.bind]

/-- **The Go evaluator agrees with the engine**: they accept the same filters, and an
accepted filter matches the same documents, reads the same roots and is the match-all
filter for both or for neither. -/
theorem parseNormalized_agrees {dec : NumText → Num} (hdec : ∀ t, (dec t).double = t.double)
    (hu : f.Unique) (ht : Spells text f)
    (hdecode : decodeJSON (code.encode text) = .ok (decoded f)) :
    ((∃ g, ParseNormalized decodeJSON (code.encode text) = .ok g) ↔
      ∃ e, Iii.Filter.fromNormalized ft (engine f) = .ok e) ∧
    ∀ g e, ParseNormalized decodeJSON (code.encode text) = .ok g →
      Iii.Filter.fromNormalized ft (engine f) = .ok e →
      (∀ d, Plain d → g.Matches (Map (hostValue code dec d)) = e.matchesValue (engine d)) ∧
      g.roots = e.roots ∧ g.matchAll = e.isMatchAll := by
  obtain ⟨hok, hcompiled⟩ := compileClauses_agrees ft (host_faithful hdec) hu
  have hdepth : (engine f).depth = f.depth := Json.depth_map ..
  constructor
  · rw [Iii.Filter.fromNormalized_isOk]
    constructor
    · intro h
      obtain ⟨g, hg⟩ := h
      obtain ⟨hle, hcompile⟩ := (parseNormalized_eq ht hdecode g).mp hg
      obtain ⟨clauses, roots, hclauses, -⟩ := compileValue_ok hcompile
      obtain ⟨hvalid, hnodes⟩ := hok.mp ⟨_, hclauses⟩
      exact ⟨by omega, hvalid, hnodes⟩
    · intro h
      obtain ⟨r, hr⟩ := hok.mpr ⟨h.valid, h.nodes⟩
      obtain ⟨g, hg⟩ := compileValue_isOk (object_of_filterOk h.valid) hr
      exact ⟨g, (parseNormalized_eq ht hdecode g).mpr ⟨by have := h.nesting; omega, hg⟩⟩
  · intro g e hg he
    obtain ⟨-, hcompile⟩ := (parseNormalized_eq ht hdecode g).mp hg
    obtain ⟨clauses, roots, hclauses, rfl⟩ := compileValue_ok hcompile
    obtain ⟨hmatches, hroots, hall⟩ :=
      (hcompiled clauses roots hclauses).agrees ft hu (Iii.Filter.of_fromNormalized ft he)
    split_ifs with hempty
    · have hmatchAll : e.isMatchAll = true := by rw [← hall, hempty]
      obtain ⟨hevery, hnone⟩ := (Iii.Filter.of_fromNormalized ft he).of_matchAll ft hmatchAll
      exact ⟨fun d _ => (hevery _).symm, hnone.symm, hmatchAll.symm⟩
    · refine ⟨fun d hd => ?_, hroots, ?_⟩
      · rw [Iii.Filter.matchesValue, ← engineDoc_rootsOf]
        exact hmatches _ _ _ (reads_map hd)
      · rw [← hall]
        simpa using hempty

/-- `encoding/json` on the text of that filter. -/
def decodeAboveOne : Units → Except Units GoValue := fun _ => .ok (decoded aboveOne)

theorem spellsString_plain (s : String)
    (h : s.toList.all (fun c => c ≠ '"' ∧ c ≠ '\\' ∧ 32 ≤ c.toNat) = true) :
    SpellsString ('"' :: (s.toList ++ ['"'])) s := by
  refine .quoted ?_
  generalize s.toList = cs at h
  induction cs with
  | nil => exact .nil
  | cons c cs ih =>
    rw [List.all_cons, Bool.and_eq_true, decide_eq_true_iff] at h
    exact .cons (.plain c h.1.1 h.1.2.1 h.1.2.2) (ih h.2)

theorem spells_aboveOne : ∃ text, Spells text aboveOne := by
  have hspace : Space [] := by simp [Space]
  have hone : Spells one.text.toList (.number one) := .number one (List.all_eq_true.mp (by rfl))
  have hops := Spells.object (.one (.member hspace (spellsString_plain "$gt" (by decide)) hspace hone))
  exact ⟨_, .object (.one (.member hspace (spellsString_plain "input.n" (by decide)) hspace hops))⟩

theorem parseNormalized_agrees_aboveOne : ∃ text g e, Spells text aboveOne ∧
    ParseNormalized decodeAboveOne (code.encode text) = .ok g ∧
    Iii.Filter.fromNormalized .exact (engine aboveOne) = .ok e ∧
    g.Matches (Map (hostValue code .number (withN two))) = true ∧
    g.Matches (Map (hostValue code .number (withN one))) = false ∧
    e.matchesValue (engine (withN two)) = true := by
  obtain ⟨text, htext⟩ := spells_aboveOne
  have hnumber : ∀ t, (Num.number t).double = t.double := fun _ => rfl
  have hdecode : decodeAboveOne (code.encode text) = .ok (decoded aboveOne) := rfl
  obtain ⟨hok, hboth⟩ := parseNormalized_agrees .exact hnumber aboveOne_unique htext hdecode
  obtain ⟨e, he⟩ := Except.ok_isOk.mp
    (show (Iii.Filter.fromNormalized .exact (engine aboveOne)).isOk = true by rfl)
  obtain ⟨g, hg⟩ := hok.mpr ⟨e, he⟩
  have hmatches := (hboth g e hg he).1
  have hread : ∀ d, e.matchesValue (engine d) =
      readFilter (Doc.fromValue (engine d)) none (normal .exact (engine aboveOne)) :=
    fun d => (Iii.Filter.of_fromNormalized .exact he).matches_normal _
  refine ⟨text, g, e, htext, hg, he, ?_, ?_, ?_⟩
  · rw [hmatches _ (withN_plain two), hread]
    decide +kernel
  · rw [hmatches _ (withN_plain one), hread]
    decide +kernel
  · rw [hread]
    decide +kernel

end Agree

end Iii.Go
