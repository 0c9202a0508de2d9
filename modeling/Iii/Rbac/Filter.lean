import Iii.Bindings.Registry
import Iii.Lib.SortedMap
import Iii.Rbac.Pattern
import Iii.Registry.Request
import Mathlib.Data.String.Basic

/-! The `expose_functions` rules: what they match, and how they are written and read
(`workers/worker/rbac_config.rs`).

A rule has two spellings, `match("pattern")` and a map. A condition on metadata that is itself a text
`match("pattern")` is read as a wildcard, and a wildcard is written as that text; nothing is escaped. It is a round
trip nonetheless (`filter_round_trip`), because an exact condition that comes from reading is never a text that
would read as a wildcard (`Read`).

Reading panics where a text overlaps (`Overlaps`) that it comes to (`deserialize_panics_iff`). -/
namespace Iii.Rbac
open Lib
open Bindings (defaultNamespace)
open Registry (comparedValue)

inductive MetadataValue where
  | exact (value : Value)
  | wildcard (pattern : WildcardPattern)

/-- A `HashMap` is what its keys look up. -/
inductive FilterMatcher where
  | matchPattern (pattern : WildcardPattern)
  | metadata (expected : SortedMap String MetadataValue)

structure FunctionFilter where
  matcher : FilterMatcher
  ns : Option String

def MetadataValue.matches : MetadataValue → Value → Bool
  | .exact expected, value => comparedValue value = comparedValue expected
  | .wildcard pattern, .string s => pattern.matches s
  | .wildcard _, _ => false

/-- The namespace of a rule; one that names none is for the default namespace. -/
def FunctionFilter.scope (f : FunctionFilter) : String := f.ns.getD defaultNamespace

def FunctionFilter.matches (f : FunctionFilter) (functionId ns : String) (metadata : Option Value) : Bool :=
  if f.scope ≠ ns then false
  else
    match f.matcher with
    | .matchPattern pattern => pattern.matches functionId
    | .metadata expected =>
      match metadata with
      | some (.object obj) => expected.entries.all fun e => (Json.get? obj e.1).any e.2.matches
      | _ => false

/-! ### Writing -/

def MetadataValue.serialize : MetadataValue → Value
  | .exact value => value
  | .wildcard pattern => .string (wrap pattern.raw)

/-- The entry that says what the rule matches. -/
def FilterMatcher.serialize : FilterMatcher → String × Value
  | .matchPattern pattern => ("match", .string pattern.raw)
  | .metadata expected => ("metadata", .object (expected.map MetadataValue.serialize).entries)

def FunctionFilter.serialize (f : FunctionFilter) : Value :=
  match f.matcher, f.ns with
  | .matchPattern pattern, none => .string (wrap pattern.raw)
  | matcher, none => .object [matcher.serialize]
  | matcher, some ns => .object [matcher.serialize, ("namespace", .string ns)]

/-! ### Reading -/

inductive DeError where
  | custom (message : String)
  /-- `invalid type: <value>, expected <expected>`. -/
  | invalidType (value : Value) (expected : String)

inductive Failure where
  | panic (panic : Panic)
  | error (error : DeError)

/-- A panic goes through every caller. -/
def orPanic {α : Type} (x : Except Panic α) : Except Failure α := x.mapError .panic

def parseMetadataValue : Value → Except Panic MetadataValue
  | .string s =>
    (parseMatchPattern s).map fun
      | some pattern => .wildcard ⟨pattern⟩
      | none => .exact (.string s)
  | value => .ok (.exact value)

/-- What `visit_map` has read so far. -/
structure Fields where
  metadataMap : SortedMap String MetadataValue
  matchPattern : Option WildcardPattern
  ns : Option String

/-- `map.next_value::<String>()`. -/
def readString : Value → Except Failure String
  | .string s => .ok s
  | value => .error (.error (.invalidType value "a string"))

/-- `map.next_value::<HashMap<String, Value>>()`. -/
def readMap : Value → Except Failure (SortedMap String Value)
  | .object members => .ok (.ofList members)
  | value => .error (.error (.invalidType value "a map"))

def insertMetadata (map : SortedMap String MetadataValue) (e : String × Value) :
    Except Failure (SortedMap String MetadataValue) :=
  (orPanic (parseMetadataValue e.2)).map (map.insert e.1)

def readMember (fields : Fields) (m : String × Value) : Except Failure Fields :=
  if m.1 = "metadata" then do
    let inner ← readMap m.2
    let metadataMap ← inner.entries.foldlM insertMetadata fields.metadataMap
    return { fields with metadataMap := metadataMap }
  else if m.1 = "match" then do
    let raw ← readString m.2
    return { fields with matchPattern := some ⟨raw⟩ }
  else if m.1 = "namespace" then do
    let ns ← readString m.2
    return { fields with ns := some ns }
  else
    .error (.error (.custom ("unknown key '" ++ m.1 ++
      "' in expose_functions filter; expected 'match', 'metadata', or 'namespace'")))

def Fields.filter (fields : Fields) : Except Failure FunctionFilter :=
  match fields.matchPattern, fields.metadataMap.entries.isEmpty with
  | some pattern, true => .ok ⟨.matchPattern pattern, fields.ns⟩
  | none, false => .ok ⟨.metadata fields.metadataMap, fields.ns⟩
  | some _, false => .error (.error (.custom "a filter has either a 'match' or a 'metadata' key, not both"))
  | none, true => .error (.error (.custom "expected a 'match' or 'metadata' key with filter conditions"))

def visitStr (v : String) : Except Failure FunctionFilter := do
  match ← orPanic (parseMatchPattern v) with
  | some pattern => return ⟨.matchPattern ⟨pattern⟩, none⟩
  | none => .error (.error (.custom ("expected match(\"pattern\"), got: " ++ v)))

def visitMap (members : List (String × Value)) : Except Failure FunctionFilter := do
  let fields ← members.foldlM readMember ⟨.empty, none, none⟩
  fields.filter

def FunctionFilter.deserialize : Value → Except Failure FunctionFilter
  | .string v => visitStr v
  | .object members => visitMap members
  | value => .error (.error (.invalidType value "a match(\"pattern\") string or a map with 'metadata' key"))

/-! ### What reading leaves -/

/-- A condition that reading can leave: an exact text is not one that reads as a wildcard. -/
def MetadataValue.Read : MetadataValue → Prop
  | .exact (.string s) => parseMatchPattern s = .ok none
  | _ => True

/-- A rule that reading can leave: each condition can be, and there is one. -/
def FunctionFilter.Read (f : FunctionFilter) : Prop :=
  ∀ expected, f.matcher = .metadata expected →
    expected.entries ≠ [] ∧ ∀ k v, expected.get? k = some v → v.Read

theorem orPanic_eq_ok {α : Type} {x : Except Panic α} {a : α} : orPanic x = .ok a ↔ x = .ok a := by
  cases x with
  | error p => exact ⟨(fun h => nomatch h), (fun h => nomatch h)⟩
  | ok b => exact ⟨fun h => congrArg _ (Except.ok.inj h), fun h => congrArg _ (Except.ok.inj h)⟩

theorem map_eq_ok {ε α β : Type} {x : Except ε α} {f : α → β} {b : β} :
    x.map f = .ok b ↔ ∃ a, x = .ok a ∧ f a = b := by
  cases x with
  | error e => exact ⟨(fun h => nomatch h), (fun ⟨_, h, _⟩ => nomatch h)⟩
  | ok a => exact ⟨fun h => ⟨a, rfl, Except.ok.inj h⟩, fun ⟨_, h, hb⟩ => by cases h; exact congrArg _ hb⟩

theorem parseMetadataValue_read {value : Value} {v : MetadataValue} (h : parseMetadataValue value = .ok v) : v.Read := by
  cases value with
  | string s =>
    obtain ⟨parsed, hparsed, rfl⟩ := map_eq_ok.mp h
    cases parsed with
    | none => exact hparsed
    | some pattern => trivial
  | _ =>
    cases h
    trivial

/-- What is written of such a condition reads back as it. -/
theorem parseMetadataValue_serialize {v : MetadataValue} (h : v.Read) : parseMetadataValue v.serialize = .ok v := by
  cases v with
  | wildcard pattern =>
    rw [MetadataValue.serialize, parseMetadataValue, parseMatchPattern_wraps (wraps_wrap pattern.raw), String.ofList_toList]
    rfl
  | exact value =>
    cases value with
    | string s =>
      have hbare : parseMatchPattern s = .ok none := h
      rw [MetadataValue.serialize, parseMetadataValue, hbare]
      rfl
    | _ => rfl

section Reading
variable {fields fields' : Fields} {map map' : SortedMap String MetadataValue} {members : List (String × Value)}

theorem insertMetadata_read {e : String × Value} (hmap : ∀ k v, map.get? k = some v → v.Read)
    (h : insertMetadata map e = .ok map') : ∀ k v, map'.get? k = some v → v.Read := by
  obtain ⟨v, hv, rfl⟩ := map_eq_ok.mp h
  intro k w hw
  rw [SortedMap.get?_insert] at hw
  split at hw
  · cases hw
    exact parseMetadataValue_read (orPanic_eq_ok.mp hv)
  · exact hmap k w hw

theorem foldlM_insertMetadata_read {entries : List (String × Value)} (hmap : ∀ k v, map.get? k = some v → v.Read)
    (h : entries.foldlM insertMetadata map = .ok map') : ∀ k v, map'.get? k = some v → v.Read := by
  induction entries generalizing map with
  | nil =>
    cases h
    exact hmap
  | cons e entries ih =>
    rw [List.foldlM_cons] at h
    obtain ⟨next, hnext, h⟩ := bind_eq_ok.mp h
    exact ih (insertMetadata_read hmap hnext) h

theorem readMember_read {m : String × Value} (hfields : ∀ k v, fields.metadataMap.get? k = some v → v.Read)
    (h : readMember fields m = .ok fields') : ∀ k v, fields'.metadataMap.get? k = some v → v.Read := by
  unfold readMember at h
  split at h
  · obtain ⟨inner, -, h⟩ := bind_eq_ok.mp h
    obtain ⟨metadataMap, hmap, h⟩ := bind_eq_ok.mp h
    cases h
    exact foldlM_insertMetadata_read hfields hmap
  · split at h
    · obtain ⟨raw, -, h⟩ := bind_eq_ok.mp h
      cases h
      exact hfields
    · split at h
      · obtain ⟨ns, -, h⟩ := bind_eq_ok.mp h
        cases h
        exact hfields
      · cases h

theorem foldlM_readMember_read (hfields : ∀ k v, fields.metadataMap.get? k = some v → v.Read)
    (h : members.foldlM readMember fields = .ok fields') : ∀ k v, fields'.metadataMap.get? k = some v → v.Read := by
  induction members generalizing fields with
  | nil =>
    cases h
    exact hfields
  | cons m members ih =>
    rw [List.foldlM_cons] at h
    obtain ⟨next, hnext, h⟩ := bind_eq_ok.mp h
    exact ih (readMember_read hfields hnext) h

end Reading

theorem Fields.filter_read {fields : Fields} {f : FunctionFilter}
    (hfields : ∀ k v, fields.metadataMap.get? k = some v → v.Read) (h : fields.filter = .ok f) : f.Read := by
  intro expected hexpected
  unfold Fields.filter at h
  split at h
  · cases h
    cases hexpected
  · next hempty =>
    cases h
    cases hexpected
    exact ⟨fun hnil => by simp [hnil] at hempty, hfields⟩
  · cases h
  · cases h

theorem deserialize_read {j : Value} {f : FunctionFilter} (h : FunctionFilter.deserialize j = .ok f) : f.Read := by
  cases j with
  | string v =>
    obtain ⟨parsed, -, h⟩ := bind_eq_ok.mp h
    cases parsed with
    | none => cases h
    | some pattern =>
      cases h
      intro expected hexpected
      cases hexpected
  | object members =>
    obtain ⟨fields, hfields, h⟩ := bind_eq_ok.mp h
    exact Fields.filter_read (foldlM_readMember_read (fun k v hget => by cases hget) hfields) h
  | _ => cases h

/-! ### The round trip -/

theorem entries_map {α β : Type} (m : SortedMap String α) (f : α → β) :
    (m.map f).entries = m.entries.map fun e => (e.1, f e.2) := by
  simp [SortedMap.map, SortedMap.filterMap, List.filterMap_eq_map']

theorem ofList_entries {α : Type} (m : SortedMap String α) : SortedMap.ofList m.entries = m := by
  apply SortedMap.ext
  intro k
  rw [SortedMap.get?_ofList m.distinct]
  rfl

/-- The conditions that are written read back one by one. -/
theorem foldlM_insertMetadata_serialize {entries : List (String × MetadataValue)} (hread : ∀ e ∈ entries, e.2.Read)
    (map : SortedMap String MetadataValue) :
    (entries.map fun e => (e.1, e.2.serialize)).foldlM insertMetadata map =
      .ok (entries.foldl (fun m e => m.insert e.1 e.2) map) := by
  induction entries generalizing map with
  | nil => rfl
  | cons e entries ih =>
    have hone : insertMetadata map (e.1, e.2.serialize) = .ok (map.insert e.1 e.2) := by
      rw [insertMetadata, parseMetadataValue_serialize (hread e List.mem_cons_self)]
      rfl
    rw [List.map_cons, List.foldlM_cons, hone, List.foldl_cons]
    exact ih (fun e he => hread e (List.mem_cons_of_mem _ he)) _

theorem readMember_metadata {expected : SortedMap String MetadataValue}
    (hread : ∀ k v, expected.get? k = some v → v.Read) :
    readMember ⟨.empty, none, none⟩ (FilterMatcher.metadata expected).serialize = .ok ⟨expected, none, none⟩ := by
  have hfold := foldlM_insertMetadata_serialize
    (fun e he => hread e.1 e.2 (SortedMap.mem_entries_iff.mp he)) SortedMap.empty
  have hall : expected.entries.foldl (fun m e => m.insert e.1 e.2) SortedMap.empty = expected := ofList_entries expected
  rw [hall, ← entries_map] at hfold
  rw [FilterMatcher.serialize, readMember, if_pos rfl, readMap, ofList_entries]
  exact bind_eq_ok.mpr ⟨_, rfl, bind_eq_ok.mpr ⟨_, hfold, rfl⟩⟩

/-- A rule that reading can leave is read back from what it is written as. -/
theorem FunctionFilter.Read.deserialize_serialize {f : FunctionFilter} (h : f.Read) :
    FunctionFilter.deserialize f.serialize = .ok f := by
  obtain ⟨matcher, ns⟩ := f
  cases matcher with
  | matchPattern pattern =>
    cases ns with
    | none =>
      rw [FunctionFilter.serialize, FunctionFilter.deserialize, visitStr,
        parseMatchPattern_wraps (wraps_wrap pattern.raw), String.ofList_toList]
      rfl
    | some ns => rfl
  | metadata expected =>
    obtain ⟨hne, hread⟩ := h expected rfl
    have hempty : expected.entries.isEmpty = false := by simpa using hne
    have hmember := readMember_metadata hread
    have hfilter : ∀ ns, Fields.filter ⟨expected, none, ns⟩ = .ok ⟨.metadata expected, ns⟩ := by
      intro ns
      simp only [Fields.filter, hempty]
    cases ns with
    | none =>
      show visitMap [_] = _
      rw [visitMap, List.foldlM_cons, hmember]
      exact hfilter none
    | some ns =>
      show visitMap [_, _] = _
      rw [visitMap, List.foldlM_cons, hmember]
      exact hfilter (some ns)

/-- A rule that was read is the same rule once written and read again: it has the same matcher, namespace and answers,
and it is written the same. -/
theorem filter_round_trip (j : Value) (f : FunctionFilter) (h : FunctionFilter.deserialize j = .ok f) :
    ∃ f', FunctionFilter.deserialize f.serialize = .ok f' ∧ f'.matcher = f.matcher ∧ f'.ns = f.ns ∧
      (∀ functionId ns metadata, f'.matches functionId ns metadata = f.matches functionId ns metadata) ∧
      f'.serialize = f.serialize :=
  ⟨f, (deserialize_read h).deserialize_serialize, rfl, rfl, fun _ _ _ => rfl, rfl⟩

theorem filter_round_trip_quotes :
    ∃ f', FunctionFilter.deserialize (FunctionFilter.serialize ⟨.matchPattern ⟨"a')\"*"⟩, none⟩) = .ok f' ∧
      f'.matcher = .matchPattern ⟨"a')\"*"⟩ :=
  let ⟨f', hf', hmatcher, _⟩ := filter_round_trip (.string " match('a')\"*')") ⟨.matchPattern ⟨"a')\"*"⟩, none⟩ rfl
  ⟨f', hf', hmatcher⟩

/-! ### Where reading panics -/

/-- The member is known and its value is of the type that is expected. -/
def Readable (m : String × Value) : Prop :=
  (m.1 = "metadata" ∧ ∃ members, m.2 = .object members) ∨
    ((m.1 = "match" ∨ m.1 = "namespace") ∧ ∃ s, m.2 = .string s)

/-- The member is a map of conditions, one of which is a text that overlaps. -/
def HoldsOverlap (m : String × Value) : Prop :=
  ∃ members, m = ("metadata", .object members) ∧
    ∃ k s, (SortedMap.ofList members).get? k = some (.string s) ∧ Overlaps s

/-- Reading comes to a text that overlaps: the rule is one, or a condition of it with nothing wrong before. -/
def ReadsOverlap : Value → Prop
  | .string s => Overlaps s
  | .object members =>
    ∃ front m rest, members = front ++ m :: rest ∧ (∀ m ∈ front, Readable m) ∧ HoldsOverlap m
  | _ => False

def Panics {α : Type} (x : Except Failure α) : Prop := x = .error (.panic .slice)

theorem panics_bind {α β : Type} {x : Except Failure α} {f : α → Except Failure β} :
    Panics (x >>= f) ↔ Panics x ∨ ∃ a, x = .ok a ∧ Panics (f a) := by
  cases x with
  | error e =>
    constructor
    · intro h
      cases h
      exact .inl rfl
    · rintro (h | ⟨a, h, -⟩)
      · cases h
        rfl
      · cases h
  | ok a =>
    constructor
    · exact fun h => .inr ⟨a, rfl, h⟩
    · rintro (h | ⟨b, h, hf⟩)
      · cases h
      · cases h
        exact hf

theorem panics_orPanic {s : String} : Panics (orPanic (parseMatchPattern s)) ↔ Overlaps s := by
  rcases parseMatchPattern_eq s with ⟨hoverlaps, h⟩ | ⟨hoverlaps, parsed, h, -⟩
  · exact ⟨fun _ => hoverlaps, fun _ => by rw [h]; rfl⟩
  · rw [h]
    exact ⟨(fun h => nomatch h), fun h => absurd h hoverlaps⟩

theorem insertMetadata_panics {map : SortedMap String MetadataValue} {e : String × Value} :
    Panics (insertMetadata map e) ↔ ∃ s, e.2 = .string s ∧ Overlaps s := by
  obtain ⟨k, value⟩ := e
  cases value with
  | string s =>
    have hparse := parseMatchPattern_eq s
    constructor
    · intro h
      refine ⟨s, rfl, ?_⟩
      rcases hparse with ⟨hoverlaps, -⟩ | ⟨-, parsed, hok, -⟩
      · exact hoverlaps
      · rw [insertMetadata, parseMetadataValue, hok] at h
        cases h
    · rintro ⟨s', hs', hoverlaps⟩
      cases hs'
      rw [insertMetadata, parseMetadataValue, parseMatchPattern_overlaps hoverlaps]
      rfl
  | _ => exact ⟨(fun h => nomatch h), fun ⟨_, h, _⟩ => nomatch h⟩

/-- Without a text that overlaps a condition is read, whatever its value is. -/
theorem insertMetadata_ok (map : SortedMap String MetadataValue) {e : String × Value}
    (h : ¬ ∃ s, e.2 = .string s ∧ Overlaps s) : ∃ map', insertMetadata map e = .ok map' := by
  obtain ⟨k, value⟩ := e
  cases value with
  | string s =>
    rcases parseMatchPattern_eq s with ⟨hoverlaps, -⟩ | ⟨-, parsed, hok, -⟩
    · exact absurd ⟨s, rfl, hoverlaps⟩ h
    · rw [insertMetadata, parseMetadataValue, hok]
      exact ⟨_, rfl⟩
  | _ => exact ⟨_, rfl⟩

theorem foldlM_insertMetadata_panics {entries : List (String × Value)} (map : SortedMap String MetadataValue) :
    Panics (entries.foldlM insertMetadata map) ↔ ∃ e ∈ entries, ∃ s, e.2 = .string s ∧ Overlaps s := by
  induction entries generalizing map with
  | nil => exact ⟨(fun h => nomatch h), fun ⟨_, h, _⟩ => nomatch h⟩
  | cons e entries ih =>
    rw [List.foldlM_cons, panics_bind, insertMetadata_panics, List.exists_mem_cons_iff]
    by_cases he : ∃ s, e.2 = .string s ∧ Overlaps s
    · exact ⟨fun _ => .inl he, fun _ => .inl he⟩
    · obtain ⟨map', hmap'⟩ := insertMetadata_ok map he
      refine or_congr_right ?_
      constructor
      · rintro ⟨map'', -, h⟩
        exact (ih map'').mp h
      · exact fun h => ⟨map', hmap', (ih map').mpr h⟩

theorem foldlM_insertMetadata_ok {entries : List (String × Value)} (map : SortedMap String MetadataValue)
    (h : ¬ ∃ e ∈ entries, ∃ s, e.2 = .string s ∧ Overlaps s) : ∃ map', entries.foldlM insertMetadata map = .ok map' := by
  induction entries generalizing map with
  | nil => exact ⟨map, rfl⟩
  | cons e entries ih =>
    obtain ⟨map', hmap'⟩ := insertMetadata_ok map fun he => h ⟨e, List.mem_cons_self, he⟩
    rw [List.foldlM_cons, hmap']
    exact ih map' fun ⟨e', he', hs⟩ => h ⟨e', List.mem_cons_of_mem _ he', hs⟩

theorem holdsOverlap_object {members : List (String × Value)} :
    HoldsOverlap ("metadata", .object members) ↔
      ∃ e ∈ (SortedMap.ofList members).entries, ∃ s, e.2 = .string s ∧ Overlaps s := by
  constructor
  · rintro ⟨members', hm, k, s, hget, hoverlaps⟩
    cases hm
    exact ⟨(k, .string s), SortedMap.mem_entries_iff.mpr hget, s, rfl, hoverlaps⟩
  · rintro ⟨⟨k, value⟩, he, s, rfl, hoverlaps⟩
    exact ⟨members, rfl, k, s, SortedMap.mem_entries_iff.mp he, hoverlaps⟩

/-- What one member does: it panics, is read, or is refused. -/
theorem readMember_cases (fields : Fields) (m : String × Value) :
    (HoldsOverlap m ∧ Readable m ∧ Panics (readMember fields m)) ∨
      (¬ HoldsOverlap m ∧ Readable m ∧ ∃ fields', readMember fields m = .ok fields') ∨
      (¬ HoldsOverlap m ∧ ¬ Readable m ∧ ∃ e, readMember fields m = .error (.error e)) := by
  obtain ⟨key, value⟩ := m
  by_cases hmetadata : key = "metadata"
  · subst hmetadata
    cases value with
    | object members =>
      have hreadable : Readable ("metadata", .object members) := .inl ⟨rfl, members, rfl⟩
      by_cases hoverlap : HoldsOverlap ("metadata", .object members)
      · refine .inl ⟨hoverlap, hreadable, ?_⟩
        rw [readMember, if_pos rfl, readMap, panics_bind]
        refine .inr ⟨_, rfl, panics_bind.mpr (.inl ?_)⟩
        exact (foldlM_insertMetadata_panics _).mpr (holdsOverlap_object.mp hoverlap)
      · refine .inr (.inl ⟨hoverlap, hreadable, ?_⟩)
        obtain ⟨map', hmap'⟩ := foldlM_insertMetadata_ok fields.metadataMap
          (fun h => hoverlap (holdsOverlap_object.mpr h))
        exact ⟨_, bind_eq_ok.mpr ⟨_, rfl, bind_eq_ok.mpr ⟨map', hmap', rfl⟩⟩⟩
    | _ =>
      refine .inr (.inr ⟨?_, ?_, _, rfl⟩)
      · rintro ⟨members, h, -⟩
        cases h
      · simp [Readable]
  · have hno : ¬ HoldsOverlap (key, value) := by
      rintro ⟨members, h, -⟩
      cases h
      exact hmetadata rfl
    by_cases hkey : key = "match" ∨ key = "namespace"
    · cases value with
      | string s =>
        refine .inr (.inl ⟨hno, .inr ⟨hkey, s, rfl⟩, ?_⟩)
        rcases hkey with rfl | rfl
        · exact ⟨_, rfl⟩
        · exact ⟨_, rfl⟩
      | _ =>
        refine .inr (.inr ⟨hno, by simp [Readable, hmetadata], ?_⟩)
        rcases hkey with rfl | rfl
        · exact ⟨_, rfl⟩
        · exact ⟨_, rfl⟩
    · refine .inr (.inr ⟨hno, by simp [Readable, hmetadata, hkey], ?_⟩)
      obtain ⟨hmatch, hns⟩ := not_or.mp hkey
      rw [readMember, if_neg hmetadata, if_neg hmatch, if_neg hns]
      exact ⟨_, rfl⟩

theorem foldlM_readMember_panics {members : List (String × Value)} (fields : Fields) :
    Panics (members.foldlM readMember fields) ↔ ReadsOverlap (.object members) := by
  induction members generalizing fields with
  | nil => simp [ReadsOverlap, Panics, pure, Except.pure]
  | cons m members ih =>
    rw [List.foldlM_cons, panics_bind]
    rcases readMember_cases fields m with ⟨hoverlap, -, hpanics⟩ | ⟨hno, hreadable, fields', hok⟩ | ⟨hno, hbad, e, he⟩
    · exact ⟨fun _ => ⟨[], m, members, rfl, (fun _ h => nomatch h), hoverlap⟩, fun _ => .inl hpanics⟩
    · have hnot : ¬ Panics (readMember fields m) := by
        rw [hok]
        exact fun h => nomatch h
      constructor
      · rintro (h | ⟨next, -, h⟩)
        · exact absurd h hnot
        · obtain ⟨front, m', rest, rfl, hfront, hm'⟩ := (ih next).mp h
          exact ⟨m :: front, m', rest, rfl, List.forall_mem_cons.mpr ⟨hreadable, hfront⟩, hm'⟩
      · rintro ⟨front, m', rest, hsplit, hfront, hm'⟩
        obtain _ | ⟨first, front⟩ := front
        · cases hsplit
          exact absurd hm' hno
        · cases hsplit
          exact .inr ⟨fields', hok, (ih fields').mpr
            ⟨front, m', rest, rfl, fun m hm => hfront m (List.mem_cons_of_mem _ hm), hm'⟩⟩
    · constructor
      · rintro (h | ⟨next, h, -⟩)
        · cases he.symm.trans h
        · cases he.symm.trans h
      · rintro ⟨front, m', rest, hsplit, hfront, hm'⟩
        obtain _ | ⟨first, front⟩ := front
        · cases hsplit
          exact absurd hm' hno
        · cases hsplit
          exact absurd (hfront _ List.mem_cons_self) hbad

theorem Fields.filter_not_panics (fields : Fields) : ¬ Panics fields.filter := by
  unfold Fields.filter
  split <;> exact fun h => nomatch h

/-- Reading a rule panics exactly when it comes to a text that overlaps. -/
theorem deserialize_panics_iff (j : Value) : Panics (FunctionFilter.deserialize j) ↔ ReadsOverlap j := by
  cases j with
  | string v =>
    show Panics (visitStr v) ↔ Overlaps v
    rw [visitStr, panics_bind, panics_orPanic]
    refine or_iff_left ?_
    rintro ⟨parsed, -, h⟩
    cases parsed <;> cases h
  | object members =>
    show Panics (visitMap members) ↔ _
    rw [visitMap, panics_bind, foldlM_readMember_panics]
    refine or_iff_left ?_
    rintro ⟨fields, -, h⟩
    exact fields.filter_not_panics h
  | _ => exact ⟨(fun h => nomatch h), False.elim⟩

end Iii.Rbac
