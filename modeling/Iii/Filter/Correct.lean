import Iii.Filter.Limits
import Iii.Filter.Normal

/-! Filters as the engine takes them.

`Filter.parse` accepts exactly the filters of the language within the limits
(`parse_ok`, `fromNormalized_ok`), and what it compiles matches the documents the
source reads (`parse_reads`). The normal form it hands out is accepted again, with
no limit crossed, and gives the same filter. -/
namespace Iii.Filter
open Lib

variable (ft : FloatText)

/-! ### Acceptance -/

/-- What `parse` requires of its source apart from the encoded size. -/
structure Admissible (src : Value) : Prop where
  nesting : src.depth ≤ maxJsonDepth
  valid : filterOk maxDepth false src = true
  nodes : filterNodes src ≤ maxNodes

/-- What `parse` returns. -/
structure ParsedOf (src : Value) (p : Parsed) : Prop where
  normalized : p.normalized = normal ft src
  reads : NodeReads false p.node (normal ft src)

theorem parseFilter_run (src : Value) :
    (∀ r s, ((level ft maxDepth).parseFilter src false).run 0 = .ok (r, s) →
      filterOk maxDepth false src = true ∧ filterNodes src ≤ maxNodes ∧ ParsedOf ft src ⟨r.1, r.2⟩) ∧
    (filterOk maxDepth false src = true → filterNodes src ≤ maxNodes →
      ∃ r s, ((level ft maxDepth).parseFilter src false).run 0 = .ok (r, s)) := by
  have h := (level_correct ft maxDepth).filter src false 0
  constructor
  · intro r s hrun
    obtain ⟨hok, hused, hle, hnormal, hreads⟩ := h.of_run (Nat.zero_le _) hrun
    simp only [id] at hused hle
    exact ⟨hok, by omega, hnormal, hnormal ▸ hreads⟩
  · intro hok hnodes
    obtain ⟨⟨r, s⟩, hrun⟩ := (h.accepts_iff (Nat.zero_le _)).mpr ⟨hok, by simpa using hnodes⟩
    exact ⟨r, s, hrun⟩

/-- `parse::parse` is its checks and then the parser. -/
theorem parsed_eq (src : Value) (limit : SizeLimit) (p : Parsed) :
    Parsed.parse ft src limit = .ok p ↔
      (limit = .enforce → encodedSize ft src ≤ maxEncodedBytes) ∧ src.depth ≤ maxJsonDepth ∧
        ∃ s, ((level ft maxDepth).parseFilter src false).run 0 = .ok ((p.node, p.normalized), s) := by
  have hsize := ensureEncodedSize_ok ft src
  have hdepth := ensureJsonDepth_ok src
  have hskip : Parsed.parse ft src .skip = .ok p ↔ src.depth ≤ maxJsonDepth ∧
      ∃ s, ((level ft maxDepth).parseFilter src false).run 0 = .ok ((p.node, p.normalized), s) := by
    unfold Parsed.parse
    cases hd : ensureJsonDepth src with
    | error e => simp [← hdepth, hd, bind, Except.bind]
    | ok u =>
      have hle := hdepth.mp hd
      cases hrun : ((level ft maxDepth).parseFilter src false).run 0 with
      | error e => simp [bind, Except.bind]
      | ok r =>
        obtain ⟨⟨node, normalized⟩, s⟩ := r
        obtain ⟨node', normalized'⟩ := p
        simp [bind, Except.bind, pure, Except.pure, hle]
  cases limit with
  | skip => simpa using hskip
  | enforce =>
    have henforce : Parsed.parse ft src .enforce =
        ensureEncodedSize ft src >>= fun _ => Parsed.parse ft src .skip := rfl
    rw [henforce]
    cases hs : ensureEncodedSize ft src with
    | error e => simp [← hsize, hs, bind, Except.bind]
    | ok u => simpa [hsize.mp hs, bind, Except.bind] using hskip

/-- `parse::parse` accepts what is admissible, and returns its normal form. -/
theorem parsed_ok {src : Value} {limit : SizeLimit} {p : Parsed}
    (h : Parsed.parse ft src limit = .ok p) :
    Admissible src ∧ (limit = .enforce → encodedSize ft src ≤ maxEncodedBytes) ∧ ParsedOf ft src p := by
  obtain ⟨hsize, hdepth, s, hrun⟩ := (parsed_eq ft src limit p).mp h
  obtain ⟨hok, hnodes, hparsed⟩ := (parseFilter_run ft src).1 _ s hrun
  exact ⟨⟨hdepth, hok, hnodes⟩, hsize, hparsed⟩

theorem parsed_of_admissible {src : Value} {limit : SizeLimit} (h : Admissible src)
    (hsize : limit = .enforce → encodedSize ft src ≤ maxEncodedBytes) :
    ∃ p, Parsed.parse ft src limit = .ok p := by
  obtain ⟨r, s, hrun⟩ := (parseFilter_run ft src).2 h.valid h.nodes
  exact ⟨⟨r.1, r.2⟩, (parsed_eq ft src limit _).mpr ⟨hsize, h.nesting, s, hrun⟩⟩

/-- A normal form is admissible when its source is: wrapping crosses no limit. -/
theorem admissible_normal {src : Value} (h : Admissible src) : Admissible (normal ft src) where
  nesting := (depth_normal ft h.valid).trans (by decide)
  valid := filterOk_normal ft h.valid
  nodes := (filterNodes_normal ft src).trans h.nodes

/-! ### Roots -/

def Roots.has (roots : Roots) : Root → Bool
  | .input => roots.input
  | .output => roots.output
  | .error => roots.error
  | .caller => roots.caller
  | .metadata => roots.metadata
  | .element => false

theorem Roots.ext_has {a b : Roots} (h : ∀ r, r ≠ .element → a.has r = b.has r) : a = b := by
  obtain ⟨a1, a2, a3, a4, a5⟩ := a
  obtain ⟨b1, b2, b3, b4, b5⟩ := b
  have h1 : a1 = b1 := h .input (by simp)
  have h2 : a2 = b2 := h .output (by simp)
  have h3 : a3 = b3 := h .error (by simp)
  have h4 : a4 = b4 := h .caller (by simp)
  have h5 : a5 = b5 := h .metadata (by simp)
  rw [h1, h2, h3, h4, h5]

theorem Roots.has_add (roots : Roots) (r r' : Root) (hr : r ≠ .element) :
    (roots.add r').has r = (roots.has r || decide (r' = r)) := by
  cases r' <;> cases r <;> simp [Roots.add, Roots.has] at hr ⊢

mutual
theorem Node.has_collectRoots (r : Root) (hr : r ≠ .element) (roots : Roots) :
    ∀ n : Node, (n.collectRoots roots).has r = (roots.has r || n.mentions r)
  | .and nodes => by rw [Node.collectRoots, Node.mentions, Node.has_collectRootsOf r hr]
  | .or nodes => by rw [Node.collectRoots, Node.mentions, Node.has_collectRootsOf r hr]
  | .not node => by rw [Node.collectRoots, Node.mentions, Node.has_collectRoots r hr]
  | .path p ops => by rw [Node.collectRoots, Node.mentions, Roots.has_add _ _ _ hr]
theorem Node.has_collectRootsOf (r : Root) (hr : r ≠ .element) (roots : Roots) :
    ∀ nodes : List Node,
      (Node.collectRootsOf roots nodes).has r = (roots.has r || Node.anyMentions r nodes)
  | [] => by simp [Node.collectRootsOf, Node.anyMentions]
  | n :: rest => by
    rw [Node.collectRootsOf, Node.has_collectRootsOf r hr, Node.has_collectRoots r hr,
      Node.anyMentions, Bool.or_assoc]
end

/-- The roots of a filter are those its normal form mentions. -/
theorem has_roots {src : Value} {p : Parsed} (h : ParsedOf ft src p) {r : Root} (hr : r ≠ .element) :
    (Filter.fromParsed p).roots.has r = mentions r false (normal ft src) := by
  rw [← h.reads.mentions_eq r]
  refine (Node.has_collectRoots r hr {} p.node).trans ?_
  cases r <;> simp [Roots.has] at hr ⊢

end Iii.Filter

namespace Iii
open Filter

variable (ft : FloatText)

/-! ### Results -/

variable {f : Filter} {src : Value}

theorem Filter.map_fromParsed_ok {x : Except FilterError Parsed} (h : Filter.fromParsed <$> x = .ok f) :
    ∃ p, x = .ok p ∧ f = Filter.fromParsed p := by
  cases x with
  | error e => cases h
  | ok p => exact ⟨p, rfl, (Except.ok.inj h).symm⟩

/-- What an accepted filter is: admissible, in normal form, read as its source. -/
structure Filter.Of (src : Value) (f : Filter) : Prop where
  admissible : Admissible src
  normalized : f.normalized = normal ft src
  matches_normal : ∀ doc, f.matches doc = readFilter doc none (normal ft src)
  roots : ∀ r, r ≠ .element → f.roots.has r = mentions r false (normal ft src)
  matchAll : f.isMatchAll = true ↔ normal ft src = .object []

theorem Filter.of_parsed {limit : SizeLimit} (h : Filter.fromParsed <$> Parsed.parse ft src limit = .ok f) :
    f.Of ft src := by
  obtain ⟨p, hp, rfl⟩ := Filter.map_fromParsed_ok h
  obtain ⟨hadm, -, hof⟩ := parsed_ok ft hp
  exact ⟨hadm, hof.normalized, fun doc => hof.reads.matches_eq doc none rfl,
    fun r hr => has_roots ft hof hr, hof.reads.matchAll⟩

theorem Filter.of_parse (h : Filter.parse ft src = .ok f) : f.Of ft src :=
  Filter.of_parsed ft h

theorem Filter.size_of_parse (h : Filter.parse ft src = .ok f) :
    encodedSize ft src ≤ maxEncodedBytes := by
  obtain ⟨p, hp, -⟩ := Filter.map_fromParsed_ok h
  exact (parsed_ok ft hp).2.1 rfl

theorem Filter.of_fromNormalized (h : Filter.fromNormalized ft src = .ok f) : f.Of ft src :=
  Filter.of_parsed ft h

/-- `from_normalized` accepts exactly the admissible filters. -/
theorem Filter.fromNormalized_isOk (src : Value) :
    (∃ f, Filter.fromNormalized ft src = .ok f) ↔ Admissible src := by
  constructor
  · rintro ⟨f, hf⟩
    exact (Filter.of_fromNormalized ft hf).admissible
  · intro h
    obtain ⟨p, hp⟩ : ∃ p, Parsed.parse ft src .skip = .ok p := parsed_of_admissible ft h (by simp)
    exact ⟨Filter.fromParsed p, by rw [Filter.fromNormalized, hp]; rfl⟩

/-- Two filters of one normal form are the same to an observer. -/
theorem Filter.Of.eq_of_normal {a b : Value} {g : Filter} (hf : f.Of ft a) (hg : g.Of ft b)
    (h : normal ft a = normal ft b) : f.normalized = g.normalized ∧ f.roots = g.roots ∧
      f.isMatchAll = g.isMatchAll ∧ ∀ doc, f.matches doc = g.matches doc := by
  refine ⟨by rw [hf.normalized, hg.normalized, h], ?_, ?_, ?_⟩
  · exact Roots.ext_has fun r hr => by rw [hf.roots r hr, hg.roots r hr, h]
  · rw [Bool.eq_iff_iff, hf.matchAll, hg.matchAll, h]
  · intro doc
    rw [hf.matches_normal, hg.matches_normal, h]

/-- The match-all filter matches every document and reads no root. -/
theorem Filter.Of.of_matchAll (h : f.Of ft src) (hall : f.isMatchAll = true) :
    (∀ doc, f.matches doc = true) ∧ f.roots = {} := by
  have hempty := h.matchAll.mp hall
  constructor
  · intro doc
    rw [h.matches_normal, hempty]
    rfl
  · refine Roots.ext_has fun r hr => ?_
    rw [h.roots r hr, hempty]
    cases r <;> rfl

theorem Filter.exists_fromNormalized (h : f.Of ft src) :
    ∃ g, Filter.fromNormalized ft f.normalized = .ok g ∧ g.Of ft (normal ft src) := by
  rw [h.normalized]
  obtain ⟨g, hg⟩ := (Filter.fromNormalized_isOk ft _).mpr (admissible_normal ft h.admissible)
  exact ⟨g, hg, Filter.of_fromNormalized ft hg⟩

/-- **A compiled filter matches what its source reads**, and so does the filter
compiled from its normal form. -/
theorem Filter.parse_matches {src : Value} (hu : src.Unique) {f : Filter}
    (h : Filter.parse ft src = .ok f) :
    (∀ doc, f.matches doc = readFilter doc none src) ∧
      ∃ g, Filter.fromNormalized ft f.normalized = .ok g ∧
        ∀ doc, g.matches doc = readFilter doc none src := by
  have hf := Filter.of_parse ft h
  have hread := readFilter_normal ft hf.admissible.valid hu
  obtain ⟨g, hg, hof⟩ := Filter.exists_fromNormalized ft hf
  refine ⟨fun doc => ?_, g, hg, fun doc => ?_⟩
  · rw [hf.matches_normal, hread]
  · rw [hof.matches_normal, normal_normal, hread]

def tagsBound : Value := .object [("$gt", .number (.posInt 1))]

/-- A filter with a repeated clause under `$and`, and a document it matches. -/
def tagsFilter : Value := .object
  [("input.tags", .object [("$any", .object [("$prefix", .string "a")])]),
   ("$and", .array [.object [("input.n", tagsBound)], .object [("input.n", tagsBound)]])]

def tagsInput : Value := .object [("n", .number (.posInt 2)), ("tags", .array [.string "b", .string "ab"])]

def tagsDoc : Doc := Doc.fromValue (.object [("input", tagsInput)])

theorem tagsFilter_unique : tagsFilter.Unique := by
  simp [tagsFilter, tagsBound, Json.Unique, Json.UniqueItems, Json.UniqueMembers]

/-- It parses, and what it reads as tells the two documents apart. -/
theorem tagsFilter_reads : (Filter.parse .exact tagsFilter).isOk = true ∧
    readFilter tagsDoc none tagsFilter = true ∧ readFilter Doc.empty none tagsFilter = false := by
  decide +kernel

theorem tagsFilter_parses : ∃ f, Filter.parse .exact tagsFilter = .ok f := Except.ok_isOk.mp tagsFilter_reads.1

theorem Filter.parse_matches_tags : ∃ f, Filter.parse .exact tagsFilter = .ok f ∧
    f.matches tagsDoc = true ∧ f.matches Doc.empty = false := by
  obtain ⟨f, hf⟩ := tagsFilter_parses
  have hread := (Filter.parse_matches .exact tagsFilter_unique hf).1
  refine ⟨f, hf, ?_, ?_⟩
  · rw [hread, tagsFilter_reads.2.1]
  · rw [hread, tagsFilter_reads.2.2]

/-- **Normalization is idempotent and stays in the language.** -/
theorem Filter.parse_normalized {src : Value} {f : Filter} (h : Filter.parse ft src = .ok f) :
    (∃ g, Filter.fromNormalized ft f.normalized = .ok g ∧ g.normalized = f.normalized ∧
      g.roots = f.roots ∧ g.isMatchAll = f.isMatchAll) ∧
    (f.isMatchAll = true ↔ f.normalized = .object []) := by
  have hf := Filter.of_parse ft h
  obtain ⟨g, hg, hof⟩ := Filter.exists_fromNormalized ft hf
  obtain ⟨hnormalized, hroots, hall, -⟩ := Filter.Of.eq_of_normal ft hof hf (normal_normal ft src)
  exact ⟨⟨g, hg, hnormalized, hroots, hall⟩, by rw [hf.matchAll, hf.normalized]⟩

theorem Filter.parse_normalized_tags : ∃ f g, Filter.parse .exact tagsFilter = .ok f ∧
    Filter.fromNormalized .exact f.normalized = .ok g ∧ g.normalized = f.normalized ∧
      g.roots = f.roots ∧ f.isMatchAll = false := by
  obtain ⟨f, hf⟩ := tagsFilter_parses
  obtain ⟨⟨g, hg, hnormalized, hroots, -⟩, hall⟩ := Filter.parse_normalized .exact hf
  refine ⟨f, g, hf, hg, hnormalized, hroots, ?_⟩
  rw [Bool.eq_false_iff, ne_eq, hall, (Filter.of_parse .exact hf).normalized]
  intro h
  have hread := readFilter_normal .exact (Filter.of_parse .exact hf).admissible.valid tagsFilter_unique Doc.empty none
  rw [h, tagsFilter_reads.2.2] at hread
  cases hread

end Iii
