import Iii.Schema.Check
import Iii.Filter.Grammar

/-! A path has one spelling.

`spell` writes a path as the messages of the schema check do, every key behind a dot and escaped. `Path.parse` reads it
back (`parse_spell`), and accepts nothing but what is spelled so (`spell_parse`): the only escapes it knows are the two
that are needed. -/
namespace Iii.Schema
open Filter

/-- What `push_escaped` adds for a key. -/
def escapeKey (key : List Char) : List Char := key.flatMap fun c => if c = '.' ∨ c = '\\' then ['\\', c] else [c]

/-- The segment that names a root. -/
def rootText : Root → String
  | .input => "input"
  | .output => "output"
  | .error => "error"
  | .caller => "caller"
  | .metadata => "metadata"
  | .element => "@"

/-- The path from a root by the keys. -/
def spell (root : Root) (keys : List String) : String :=
  keys.foldl (fun path key => pushEscaped (path ++ ".") key) (rootText root)

theorem toList_foldl (keys : List String) (path : String) :
    (keys.foldl (fun path key => pushEscaped (path ++ ".") key) path).toList =
      path.toList ++ keys.flatMap fun key => '.' :: escapeKey key.toList := by
  induction keys generalizing path with
  | nil => simp
  | cons key keys ih =>
    rw [List.foldl_cons, ih, pushEscaped, String.toList_ofList, List.flatMap_cons]
    simp [escapeKey]

theorem toList_spell (root : Root) (keys : List String) :
    (spell root keys).toList = (rootText root).toList ++ keys.flatMap fun key => '.' :: escapeKey key.toList :=
  toList_foldl keys (rootText root)

/-! ### Reading -/

variable {raw : String}

theorem escapeKey_rootText (root : Root) : escapeKey (rootText root).toList = (rootText root).toList := by
  cases root <;> decide

theorem splitPath_spell (root : Root) {keys : List String} (h : ∀ key ∈ keys, key ≠ "") :
    splitPath raw (spell root keys).toList [] [] = .ok (rootText root :: keys) := by
  have hroot : (rootText root).toList ≠ [] := by cases root <;> decide
  rw [toList_spell, ← escapeKey_rootText root]
  exact (splitPath_escapeKey raw _ _ [] []).trans
    ((splitPath_segments raw h [] hroot).trans (by rw [String.ofList_toList, List.nil_append]))

theorem fromSegment_rootText (root : Root) : Root.fromSegment (rootText root) = some root := by
  cases root <;> decide

theorem eq_rootText {segment : String} {root : Root} (h : Root.fromSegment segment = some root) :
    segment = rootText root := by
  unfold Root.fromSegment at h
  split_ifs at h <;> cases h <;> assumption

theorem parseRoot_rootText (root : Root) : parseRoot raw (rootText root) (decide (root = .element)) = .ok root := by
  unfold parseRoot
  rw [fromSegment_rootText]
  cases root <;> rfl

/-- What is spelled is read back. -/
theorem parse_spell (root : Root) {keys : List String} (h : ∀ key ∈ keys, key ≠ "")
    (hlen : keys.length ≤ maxPathSegments) : Path.parse (spell root keys) (decide (root = .element)) =
      .ok ⟨root, keys.map fun key => ⟨key, canonicalIndex key⟩⟩ := by
  unfold Path.parse
  rw [splitPath_spell root h]
  show (parseRoot (spell root keys) (rootText root) _ >>= _) = _
  rw [parseRoot_rootText]
  show (if (keys.map fun key => (⟨key, canonicalIndex key⟩ : Segment)).length > maxPathSegments then _ else _) = _
  rw [if_neg]
  · rfl
  · rw [List.length_map]
    omega

/-! ### What is accepted -/

theorem fromSegment_of_parseRoot {first : String} {inAny : Bool} {root : Root}
    (h : parseRoot raw first inAny = .ok root) : Root.fromSegment first = some root := by
  unfold parseRoot at h
  cases hfirst : Root.fromSegment first with
  | none =>
    rw [hfirst] at h
    cases inAny <;> cases h
  | some r =>
    rw [hfirst] at h
    cases r <;> cases inAny <;> cases h <;> rfl

/-- What is accepted is what its root and its keys spell. -/
theorem spell_parse {inAny : Bool} {p : Path} (h : Path.parse raw inAny = .ok p) :
    spell p.root (p.segments.map (·.key)) = raw := by
  unfold Path.parse at h
  cases hparts : splitPath raw raw.toList [] [] with
  | error e =>
    rw [hparts] at h
    cases h
  | ok parts =>
    cases hroot : parseRoot raw (parts.headD "") inAny with
    | error e =>
      simp only [hparts, hroot, bind, Except.bind] at h
      cases h
    | ok root =>
      simp only [hparts, hroot, bind, Except.bind] at h
      split at h
      · cases h
      · cases h
        obtain ⟨first, keys, htext, rfl, -⟩ := splitPath_ok hparts
        have hfirst : first = (rootText root).toList := by
          rw [← eq_rootText (fromSegment_of_parseRoot hroot)]
          exact String.toList_ofList.symm
        have hkeys : (keys.map fun key => (⟨key, canonicalIndex key⟩ : Segment)).map (·.key) = keys := by
          rw [List.map_map]
          exact List.map_id keys
        apply String.toList_injective
        rw [htext, hfirst, show Filter.escapeKey _ = _ from escapeKey_rootText root]
        show (spell root ((keys.map fun key => (⟨key, canonicalIndex key⟩ : Segment)).map (·.key))).toList = _
        rw [hkeys, toList_spell]
        rfl

/-- The paths and the strings that are accepted are one for one: what a root and keys spell is read back as they are,
every string that is accepted is spelled by what it is read as, and no two are read alike. -/
theorem path_spelling : (∀ (root : Root) (keys : List String), (∀ key ∈ keys, key ≠ "") →
      keys.length ≤ maxPathSegments → Path.parse (spell root keys) (decide (root = .element)) =
        .ok ⟨root, keys.map fun key => ⟨key, canonicalIndex key⟩⟩) ∧
    (∀ raw inAny p, Path.parse raw inAny = .ok p → spell p.root (p.segments.map (·.key)) = raw) ∧
    ∀ raw raw' inAny inAny' p p', Path.parse raw inAny = .ok p → Path.parse raw' inAny' = .ok p' →
      p.root = p'.root → p.segments.map (·.key) = p'.segments.map (·.key) → raw = raw' := by
  refine ⟨fun root keys h hlen => parse_spell root h hlen, fun raw inAny p h => spell_parse h, ?_⟩
  intro raw raw' inAny inAny' p p' h h' hroot hkeys
  rw [← spell_parse h, ← spell_parse h', hroot, hkeys]

end Iii.Schema
