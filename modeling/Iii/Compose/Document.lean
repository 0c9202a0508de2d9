import Iii.Compose.Interpolate
import Iii.Lib.Checks

/-! Interpolating a whole compose document (`iii-compose`, `interpolate.rs`).

The walk goes through sequences and the values of mappings, in the order of the document, with
the depth and a flag: whether the mapping it comes to is what the top-level `engine` holds. A place
in the document is the list of indices that lead to it, and its trail the keys on that way. The
flag is passed on by a sequence, so `workers` is left alone in a mapping inside a list as well. -/
namespace Iii.Compose
open Lib

/-- `serde_yaml::Yaml.Value`, over any numbers. -/
inductive Yaml.Value (N : Type) where
  | null
  | bool (b : Bool)
  | number (n : N)
  | string (text : String)
  | sequence (items : List (Yaml.Value N))
  | mapping (entries : List (Yaml.Value N × Yaml.Value N))
  | tagged (tag : String) (value : Yaml.Value N)

namespace Yaml
variable {N : Type}

/-- Induction over what is reached through sequences and the values of mappings. -/
@[elab_as_elim]
theorem Value.ind {P : Value N → Prop} (null : P .null) (bool : ∀ b, P (.bool b)) (number : ∀ n, P (.number n))
    (string : ∀ text, P (.string text)) (sequence : ∀ items, (∀ v ∈ items, P v) → P (.sequence items))
    (mapping : ∀ entries, (∀ e ∈ entries, P e.2) → P (.mapping entries))
    (tagged : ∀ tag v, P (.tagged tag v)) (v : Value N) : P v :=
  @Value.rec N P (fun items => ∀ v ∈ items, P v) (fun entries => ∀ e ∈ entries, P e.2) (fun e => P e.2)
    null bool number string sequence mapping (fun tag v _ => tagged tag v)
    (fun _ h => by cases h)
    (fun _ _ hv hrest _ h => by
      rcases List.mem_cons.mp h with rfl | h
      · exact hv
      · exact hrest _ h)
    (fun _ h => by cases h)
    (fun _ _ he hrest _ h => by
      rcases List.mem_cons.mp h with rfl | h
      · exact he
      · exact hrest _ h)
    (fun _ _ _ h => h) v

/-- `as_str`, which looks through tags. -/
def Value.asStr : Value N → Option String
  | .string text => some text
  | .tagged _ v => v.asStr
  | _ => none

end Yaml

section Walk
variable {N : Type} (path : String) (lookup : String → Option String)

/-- `NOT_OURS`. -/
def notOurs : String := "config_override"

mutual
def expandTreeAt (depth : Nat) (inEngine : Bool) : Yaml.Value N → Except InterpolationError (Yaml.Value N)
  | .string text => do
    let text ← expand path lookup text
    return .string text
  | .sequence items => do
    let items ← expandItems (depth + 1) inEngine items
    return .sequence items
  | .mapping entries => do
    let entries ← expandEntries depth inEngine entries
    return .mapping entries
  | v => .ok v
def expandItems (depth : Nat) (inEngine : Bool) :
    List (Yaml.Value N) → Except InterpolationError (List (Yaml.Value N))
  | [] => .ok []
  | v :: rest => do
    let v ← expandTreeAt depth inEngine v
    let rest ← expandItems depth inEngine rest
    return v :: rest
def expandEntries (depth : Nat) (inEngine : Bool) :
    List (Yaml.Value N × Yaml.Value N) → Except InterpolationError (List (Yaml.Value N × Yaml.Value N))
  | [] => .ok []
  | (key, entry) :: rest =>
    if key.asStr = some notOurs || (inEngine && key.asStr = some "workers") then do
      let rest ← expandEntries depth inEngine rest
      return (key, entry) :: rest
    else do
      let entry ← expandTreeAt (depth + 1) (depth = 0 && key.asStr = some "engine") entry
      let rest ← expandEntries depth inEngine rest
      return (key, entry) :: rest
end

def expandTree (v : Yaml.Value N) : Except InterpolationError (Yaml.Value N) := expandTreeAt path lookup 0 false v

end Walk

/-! ### Places in a document -/

/-- One step of a trail: into a list, or under a key. -/
inductive Step where
  | item
  | entry (key : Option String)
deriving DecidableEq

section Places
variable {N : Type}

/-- What stands at a place. -/
def Yaml.Value.at? : List Nat → Yaml.Value N → Option (Yaml.Value N)
  | [], v => some v
  | i :: place, .sequence items => items[i]?.bind (at? place)
  | i :: place, .mapping entries => entries[i]?.bind fun e => at? place e.2
  | _ :: _, _ => none

def Yaml.Value.trail : List Nat → Yaml.Value N → List Step
  | i :: place, .sequence items => .item :: (items[i]?.elim [] (trail place))
  | i :: place, .mapping entries =>
    match entries[i]? with
    | some e => .entry e.1.asStr :: trail place e.2
    | none => []
  | _, _ => []

theorem Yaml.Value.trail_sequence {items : List (Yaml.Value N)} {i : Nat} {v : Yaml.Value N} (h : items[i]? = some v)
    (place : List Nat) : (Yaml.Value.sequence items).trail (i :: place) = .item :: v.trail place := by
  show Step.item :: items[i]?.elim [] (trail place) = _
  rw [h]
  rfl

theorem Yaml.Value.trail_mapping {entries : List (Yaml.Value N × Yaml.Value N)} {i : Nat}
    {e : Yaml.Value N × Yaml.Value N} (h : entries[i]? = some e) (place : List Nat) :
    (Yaml.Value.mapping entries).trail (i :: place) = .entry e.1.asStr :: e.2.trail place := by
  rw [trail, h]

/-- The first key of the trail is `workers`. -/
def UnderWorkers : List Step → Prop
  | .item :: trail => UnderWorkers trail
  | .entry key :: _ => key = some "workers"
  | [] => False

/-- What compose does not read: under a `config_override`, or under the `workers` of the top-level
`engine`. -/
def Exempt (trail : List Step) : Prop :=
  .entry (some notOurs) ∈ trail ∨ ∃ rest, trail = .entry (some "engine") :: rest ∧ UnderWorkers rest

/-- A value without what stands below it. -/
inductive Label (N : Type) where
  | null
  | bool (b : Bool)
  | number (n : N)
  | string
  | sequence (length : Nat)
  | mapping (keys : List (Yaml.Value N))
  | tagged (tag : String) (value : Yaml.Value N)

def Yaml.Value.label : Yaml.Value N → Label N
  | .null => .null
  | .bool b => .bool b
  | .number n => .number n
  | .string _ => .string
  | .sequence items => .sequence items.length
  | .mapping entries => .mapping (entries.map (·.1))
  | .tagged tag v => .tagged tag v

end Places

/-! ### What the walk does -/

section Walked
variable {N : Type} {path : String} {lookup : String → Option String} {exempt : List Step → Prop} {v w : Yaml.Value N}

/-- `w` is `v` with the strings outside the exempt trails expanded, and nothing else changed. -/
structure Rewritten (path : String) (lookup : String → Option String) (exempt : List Step → Prop) (v w : Yaml.Value N) :
    Prop where
  label : ∀ place, (w.at? place).map Yaml.Value.label = (v.at? place).map Yaml.Value.label
  leaf : ∀ place text, v.at? place = some (.string text) → ∃ text', w.at? place = some (.string text') ∧
    (exempt (v.trail place) → text' = text) ∧ (¬ exempt (v.trail place) → expand path lookup text = .ok text')

/-- A string outside the exempt trails has this error. -/
def Faulty (path : String) (lookup : String → Option String) (exempt : List Step → Prop) (v : Yaml.Value N)
    (e : InterpolationError) : Prop :=
  ∃ place text, v.at? place = some (.string text) ∧ ¬ exempt (v.trail place) ∧ expand path lookup text = .error e

theorem Rewritten.not_faulty (h : Rewritten path lookup exempt v w) (e : InterpolationError) :
    ¬ Faulty path lookup exempt v e := by
  rintro ⟨place, text, hat, hvisited, herror⟩
  obtain ⟨text', -, -, hok⟩ := h.leaf place text hat
  rw [hok hvisited] at herror
  cases herror

/-- What is exempt as a whole is kept, and so is what has no string in it. -/
theorem Rewritten.kept
    (h : ∀ place text, v.at? place = some (.string text) → exempt (v.trail place)) :
    Rewritten path lookup exempt v v where
  label _ := rfl
  leaf place text hat := ⟨text, hat, fun _ => rfl, fun hvisited => absurd (h place text hat) hvisited⟩

theorem Rewritten.scalar (hat : ∀ i place, v.at? (i :: place) = none) (hv : ∀ text, v ≠ .string text) :
    Rewritten path lookup exempt v v := by
  refine .kept fun place text h => ?_
  cases place with
  | nil => exact absurd (Option.some.inj h) (hv text)
  | cons i place =>
    rw [hat] at h
    cases h

theorem Rewritten.string {text text' : String} (hvisited : ¬ exempt []) (h : expand path lookup text = .ok text') :
    Rewritten (N := N) path lookup exempt (.string text) (.string text') where
  label place := by
    cases place with
    | nil => rfl
    | cons i place => rfl
  leaf place text₂ hat := by
    cases place with
    | nil =>
      cases hat
      exact ⟨text', rfl, fun hexempt => absurd hexempt hvisited, fun _ => h⟩
    | cons i place => cases hat

theorem Rewritten.sequence {items items' : List (Yaml.Value N)} (hlength : items'.length = items.length)
    (h : ∀ (i : Nat) v w, items[i]? = some v → items'[i]? = some w →
      Rewritten path lookup (fun trail => exempt (.item :: trail)) v w) :
    Rewritten path lookup exempt (.sequence items) (.sequence items') where
  label place := by
    cases place with
    | nil => exact congrArg (fun n => some (Label.sequence n)) hlength
    | cons i place =>
      simp only [Yaml.Value.at?]
      cases hv : items[i]? with
      | none => rw [List.getElem?_eq_none (by rw [hlength]; exact List.getElem?_eq_none_iff.mp hv)]
      | some v =>
        have hi : i < items'.length := by
          rw [hlength]
          exact (List.getElem?_eq_some_iff.mp hv).1
        have hw : items'[i]? = some items'[i] := List.getElem?_eq_getElem hi
        rw [hw]
        exact (h i _ _ hv hw).label place
  leaf place text hat := by
    cases place with
    | nil => cases hat
    | cons i place =>
      obtain ⟨v, hv, hat⟩ := Option.bind_eq_some_iff.mp hat
      have hi : i < items'.length := by
        rw [hlength]
        exact (List.getElem?_eq_some_iff.mp hv).1
      have hw : items'[i]? = some items'[i] := List.getElem?_eq_getElem hi
      obtain ⟨text', hat', hleaf⟩ := (h i _ _ hv hw).leaf place text hat
      rw [Yaml.Value.trail_sequence hv]
      exact ⟨text', Option.bind_eq_some_iff.mpr ⟨_, hw, hat'⟩, hleaf⟩

theorem Rewritten.mapping {entries entries' : List (Yaml.Value N × Yaml.Value N)}
    (hkeys : entries'.map (·.1) = entries.map (·.1))
    (h : ∀ (i : Nat) e e', entries[i]? = some e → entries'[i]? = some e' →
      Rewritten path lookup (fun trail => exempt (.entry e.1.asStr :: trail)) e.2 e'.2) :
    Rewritten path lookup exempt (.mapping entries) (.mapping entries') := by
  have hlength : entries'.length = entries.length := by
    have := congrArg List.length hkeys
    simpa using this
  have hother : ∀ {i : Nat} {e}, entries[i]? = some e → ∃ e', entries'[i]? = some e' := by
    intro i e he
    have hi : i < entries'.length := by
      rw [hlength]
      exact (List.getElem?_eq_some_iff.mp he).1
    exact ⟨_, List.getElem?_eq_getElem hi⟩
  constructor
  · intro place
    cases place with
    | nil => exact congrArg (fun keys => some (Label.mapping keys)) hkeys
    | cons i place =>
      simp only [Yaml.Value.at?]
      cases he : entries[i]? with
      | none => rw [List.getElem?_eq_none (by rw [hlength]; exact List.getElem?_eq_none_iff.mp he)]
      | some e =>
        obtain ⟨e', he'⟩ := hother he
        rw [he']
        exact (h i e e' he he').label place
  · intro place text hat
    cases place with
    | nil => cases hat
    | cons i place =>
      obtain ⟨e, he, hat⟩ := Option.bind_eq_some_iff.mp hat
      obtain ⟨e', he'⟩ := hother he
      obtain ⟨text', hat', hleaf⟩ := (h i e e' he he').leaf place text hat
      rw [Yaml.Value.trail_mapping he]
      exact ⟨text', Option.bind_eq_some_iff.mpr ⟨e', he', hat'⟩, hleaf⟩

/-! ### The walk, with its depth and its flag -/

/-- What the walk leaves alone below a value that it meets with this depth and this flag. -/
def ExemptFrom (depth : Nat) (inEngine : Bool) (trail : List Step) : Prop :=
  .entry (some notOurs) ∈ trail ∨ (depth = 0 ∧ ∃ rest, trail = .entry (some "engine") :: rest ∧ UnderWorkers rest) ∨
    (inEngine = true ∧ UnderWorkers trail)

theorem exemptFrom_start : ExemptFrom 0 false = Exempt := by
  funext trail
  simp [ExemptFrom, Exempt]

theorem not_exemptFrom_nil (depth : Nat) (inEngine : Bool) : ¬ ExemptFrom depth inEngine [] := by
  simp [ExemptFrom, UnderWorkers]

/-- A sequence passes the flag on. -/
theorem exemptFrom_item (depth : Nat) (inEngine : Bool) :
    (fun trail => ExemptFrom depth inEngine (.item :: trail)) = ExemptFrom (depth + 1) inEngine := by
  funext trail
  simp [ExemptFrom, UnderWorkers]

/-- A mapping leaves two keys alone, and sets the flag under the top-level `engine`. -/
theorem exemptFrom_entry (depth : Nat) (inEngine : Bool) (key : Option String) (trail : List Step) :
    ExemptFrom depth inEngine (.entry key :: trail) ↔
      (key = some notOurs ∨ (inEngine = true ∧ key = some "workers")) ∨
        ExemptFrom (depth + 1) (depth = 0 && key = some "engine") trail := by
  simp only [ExemptFrom, UnderWorkers, List.mem_cons, Step.entry.injEq, List.cons.injEq, Nat.add_eq_zero_iff,
    Nat.one_ne_zero, and_false, false_and, false_or, Bool.and_eq_true, decide_eq_true_eq]
  constructor
  · rintro ((hkey | hmem) | ⟨hdepth, rest, ⟨hkey, rfl⟩, hunder⟩ | ⟨hflag, hkey⟩)
    · exact .inl (.inl hkey.symm)
    · exact .inr (.inl hmem)
    · exact .inr (.inr ⟨⟨hdepth, hkey⟩, hunder⟩)
    · exact .inl (.inr ⟨hflag, hkey⟩)
  · rintro ((hkey | ⟨hflag, hkey⟩) | hmem | ⟨⟨hdepth, hkey⟩, hunder⟩)
    · exact .inl (.inl hkey.symm)
    · exact .inr (.inr ⟨hflag, hkey⟩)
    · exact .inl (.inr hmem)
    · exact .inr (.inl ⟨hdepth, trail, ⟨hkey, rfl⟩, hunder⟩)

/-- What is done with one entry of a mapping. -/
def expandEntry (path : String) (lookup : String → Option String) (depth : Nat) (inEngine : Bool)
    (e : Yaml.Value N × Yaml.Value N) : Except InterpolationError (Yaml.Value N × Yaml.Value N) :=
  if e.1.asStr = some notOurs || (inEngine && e.1.asStr = some "workers") then .ok e
  else do
    let entry ← expandTreeAt path lookup (depth + 1) (depth = 0 && e.1.asStr = some "engine") e.2
    return (e.1, entry)

theorem expandItems_eq (depth : Nat) (inEngine : Bool) (items : List (Yaml.Value N)) :
    expandItems path lookup depth inEngine items = items.mapM (expandTreeAt path lookup depth inEngine) := by
  induction items with
  | nil => rfl
  | cons v rest ih =>
    rw [expandItems, ih, List.mapM_cons]

theorem expandEntries_eq (depth : Nat) (inEngine : Bool) (entries : List (Yaml.Value N × Yaml.Value N)) :
    expandEntries path lookup depth inEngine entries = entries.mapM (expandEntry path lookup depth inEngine) := by
  induction entries with
  | nil => rfl
  | cons e rest ih =>
    rw [expandEntries, ih, List.mapM_cons, expandEntry]
    split
    · rfl
    · cases expandTreeAt path lookup (depth + 1) (depth = 0 && e.1.asStr = some "engine") e.2 <;> rfl

/-- What may come of walking a value. -/
def Walked (path : String) (lookup : String → Option String) (exempt : List Step → Prop) (v : Yaml.Value N)
    (result : Except InterpolationError (Yaml.Value N)) : Prop :=
  match result with
  | .ok w => Rewritten path lookup exempt v w
  | .error e => Faulty path lookup exempt v e

theorem Faulty.item {items : List (Yaml.Value N)} {e : InterpolationError} (hv : v ∈ items)
    (h : Faulty path lookup (fun trail => exempt (.item :: trail)) v e) :
    Faulty path lookup exempt (.sequence items) e := by
  obtain ⟨place, text, hat, hvisited, herror⟩ := h
  obtain ⟨i, hi⟩ := List.mem_iff_getElem?.mp hv
  refine ⟨i :: place, text, Option.bind_eq_some_iff.mpr ⟨v, hi, hat⟩, ?_, herror⟩
  rw [Yaml.Value.trail_sequence hi]
  exact hvisited

theorem Faulty.entry {entries : List (Yaml.Value N × Yaml.Value N)} {e : Yaml.Value N × Yaml.Value N}
    {error : InterpolationError}
    (he : e ∈ entries) (h : Faulty path lookup (fun trail => exempt (.entry e.1.asStr :: trail)) e.2 error) :
    Faulty path lookup exempt (.mapping entries) error := by
  obtain ⟨place, text, hat, hvisited, herror⟩ := h
  obtain ⟨i, hi⟩ := List.mem_iff_getElem?.mp he
  refine ⟨i :: place, text, Option.bind_eq_some_iff.mpr ⟨e, hi, hat⟩, ?_, herror⟩
  rw [Yaml.Value.trail_mapping hi]
  exact hvisited

theorem expandEntry_key {depth : Nat} {inEngine : Bool} {e e' : Yaml.Value N × Yaml.Value N}
    (h : expandEntry path lookup depth inEngine e = .ok e') : e'.1 = e.1 := by
  unfold expandEntry at h
  split at h
  · cases h
    rfl
  · obtain ⟨entry, -, h⟩ := bind_eq_ok.mp h
    cases h
    rfl

/-- One entry: it is left alone, or its value is walked. -/
theorem expandEntry_walked (depth : Nat) (inEngine : Bool) {e : Yaml.Value N × Yaml.Value N}
    (ih : ∀ depth inEngine,
      Walked path lookup (ExemptFrom depth inEngine) e.2 (expandTreeAt path lookup depth inEngine e.2)) :
    Walked path lookup (fun trail => ExemptFrom depth inEngine (.entry e.1.asStr :: trail)) e.2
      ((expandEntry path lookup depth inEngine e).map (·.2)) := by
  have htrail : (fun trail => ExemptFrom depth inEngine (.entry e.1.asStr :: trail)) = fun trail =>
      (e.1.asStr = some notOurs ∨ (inEngine = true ∧ e.1.asStr = some "workers")) ∨
        ExemptFrom (depth + 1) (depth = 0 && e.1.asStr = some "engine") trail :=
    funext fun trail => propext (exemptFrom_entry depth inEngine e.1.asStr trail)
  rw [htrail, expandEntry]
  split
  · rename_i hleft
    simp only [Bool.or_eq_true, Bool.and_eq_true, decide_eq_true_eq] at hleft
    exact Rewritten.kept fun _ _ _ => Or.inl hleft
  · rename_i hwalked
    simp only [Bool.or_eq_true, Bool.and_eq_true, decide_eq_true_eq] at hwalked
    have hfalse : ∀ p : Prop, ((e.1.asStr = some notOurs ∨ inEngine = true ∧ e.1.asStr = some "workers") ∨ p) ↔ p :=
      fun p => or_iff_right hwalked
    simp only [hfalse]
    have hih := ih (depth + 1) (depth = 0 && e.1.asStr = some "engine")
    revert hih
    cases expandTreeAt path lookup (depth + 1) (depth = 0 && e.1.asStr = some "engine") e.2 with
    | ok entry => exact id
    | error error => exact id

theorem expandTreeAt_walked (v : Yaml.Value N) (depth : Nat) (inEngine : Bool) :
    Walked path lookup (ExemptFrom depth inEngine) v (expandTreeAt path lookup depth inEngine v) := by
  induction v using Yaml.Value.ind generalizing depth inEngine with
  | null => exact .scalar (fun _ _ => rfl) nofun
  | bool b => exact .scalar (fun _ _ => rfl) nofun
  | number n => exact .scalar (fun _ _ => rfl) nofun
  | tagged tag v => exact .scalar (fun _ _ => rfl) nofun
  | string text =>
    rw [expandTreeAt]
    cases hexpand : expand path lookup text with
    | ok text' => exact .string (not_exemptFrom_nil _ _) hexpand
    | error e => exact ⟨[], text, rfl, not_exemptFrom_nil _ _, hexpand⟩
  | sequence items ih =>
    rw [expandTreeAt, expandItems_eq]
    cases hitems : items.mapM (expandTreeAt path lookup (depth + 1) inEngine) with
    | ok items' =>
      refine .sequence ?_ fun i v w hv hw => ?_
      · simpa using (congrArg List.length (mapM_eq_ok.mp hitems)).symm
      · have hresult := mapM_getElem? hitems i
        rw [hv, hw] at hresult
        have hwalk := ih v (List.mem_of_getElem? hv) (depth + 1) inEngine
        rw [← Option.some.inj hresult] at hwalk
        rw [exemptFrom_item]
        exact hwalk
    | error e =>
      obtain ⟨v, hv, herror⟩ := mapM_eq_error hitems
      have hwalk := ih v hv (depth + 1) inEngine
      rw [herror, ← exemptFrom_item] at hwalk
      exact Faulty.item hv hwalk
  | mapping entries ih =>
    rw [expandTreeAt, expandEntries_eq]
    cases hentries : entries.mapM (expandEntry path lookup depth inEngine) with
    | ok entries' =>
      refine .mapping ?_ fun i e e' he he' => ?_
      · exact mapM_map_eq hentries fun e e' => expandEntry_key
      · have hresult := mapM_getElem? hentries i
        rw [he, he'] at hresult
        have hwalk := expandEntry_walked depth inEngine (ih e (List.mem_of_getElem? he))
        rw [← Option.some.inj hresult] at hwalk
        exact hwalk
    | error error =>
      obtain ⟨e, he, herror⟩ := mapM_eq_error hentries
      have hwalk := expandEntry_walked depth inEngine (ih e he)
      rw [herror] at hwalk
      exact Faulty.entry he hwalk

theorem expandTree_walked (path : String) (lookup : String → Option String) (v : Yaml.Value N) :
    Walked path lookup Exempt v (expandTree path lookup v) := by
  rw [← exemptFrom_start]
  exact expandTreeAt_walked v 0 false

theorem map_ofList_injective {a b : Except InterpolationError (List Char)}
    (h : a.map String.ofList = b.map String.ofList) : a = b := by
  cases a with
  | error e =>
    cases b with
    | error e' => exact congrArg Except.error (Except.error.inj h)
    | ok l => cases h
  | ok l =>
    cases b with
    | error e => cases h
    | ok l' => exact congrArg Except.ok (String.ofList_injective (Except.ok.inj h))

/-- Strings are read by their grammar, doubled dollars come back, and the document has its strings
read wherever it is not exempt. -/
theorem interpolation_reads (path : String) (lookup : String → Option String) :
    (∀ text result, expand path lookup text = result.map String.ofList ↔ Reads path lookup text.toList result) ∧
    (∀ text, expand path lookup (String.ofList (escape text.toList)) = .ok text) ∧
    ∀ v : Yaml.Value N,
      ((∃ e, expandTree path lookup v = .error e) ↔ ∃ e, Faulty path lookup Exempt v e) ∧
      (∀ e, expandTree path lookup v = .error e → Faulty path lookup Exempt v e) ∧
      ∀ w, expandTree path lookup v = .ok w → Rewritten path lookup Exempt v w := by
  refine ⟨fun text result => ?_, fun text => ?_, fun v => ?_⟩
  · rw [← expandList_iff, expand]
    exact ⟨map_ofList_injective, fun h => congrArg _ h⟩
  · rw [expand, String.toList_ofList, expandList_iff.mpr (reads_escape text.toList)]
    exact congrArg Except.ok String.ofList_toList
  · have hwalked := expandTree_walked path lookup v
    refine ⟨⟨?_, ?_⟩, ?_, ?_⟩
    · rintro ⟨e, he⟩
      rw [he] at hwalked
      exact ⟨e, hwalked⟩
    · rintro ⟨e, hfaulty⟩
      cases hresult : expandTree path lookup v with
      | error e' => exact ⟨e', rfl⟩
      | ok w =>
        rw [hresult] at hwalked
        exact absurd hfaulty (hwalked.not_faulty e)
    · intro e he
      rw [he] at hwalked
      exact hwalked
    · intro w hw
      rw [hw] at hwalked
      exact hwalked

end Walked

/-! ### A list between the engine and its workers -/

/-- Under a `config_override`, or under the key `workers` right in the top-level `engine`. -/
def ExemptBlock (trail : List Step) : Prop :=
  .entry (some notOurs) ∈ trail ∨ ∃ rest, trail = .entry (some "engine") :: .entry (some "workers") :: rest

def engineInList : Yaml.Value Unit :=
  .mapping [(.string "engine", .sequence [.mapping [(.string "workers", .string "${HOME}")]])]

def home (name : String) : Option String := if name = "HOME" then some "/root" else none

/-- The engine is a list here, and the `workers` of its item is left alone as well. -/
theorem workers_in_list : expandTree "worker-compose.yaml" home engineInList = .ok engineInList ∧
    expand "worker-compose.yaml" home "${HOME}" = .ok "/root" ∧
    ¬ Rewritten "worker-compose.yaml" home ExemptBlock engineInList engineInList := by
  refine ⟨rfl, by rfl, fun h => ?_⟩
  obtain ⟨text', hat, -, hvisited⟩ := h.leaf [0, 0, 0] "${HOME}" rfl
  cases hat
  have hread := hvisited (by simp [ExemptBlock, engineInList, Yaml.Value.trail, Yaml.Value.asStr, notOurs])
  revert hread
  decide

end Iii.Compose
