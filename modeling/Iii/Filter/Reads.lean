import Iii.Filter.Correct

/-! A filter reads nothing but its roots.

Two documents that agree on the roots that a filter mentions are the same to it. The paths inside `$any` start at
`@`, so what they read is in the array that the path of the `$any` names. -/
namespace Iii.Filter
open Lib

/-- `doc` and `doc'` have the same under every root that `mentioned` holds of. -/
def Doc.Agree (doc doc' : Doc) (element : Option Value) (mentioned : Root → Bool) : Prop :=
  ∀ r, mentioned r = true → doc.root element r = doc'.root element r

variable {doc' doc : Doc} {element : Option Value}

theorem Doc.Agree.mono {p q : Root → Bool} (h : doc.Agree doc' element p) (hpq : ∀ r, q r = true → p r = true) :
    doc.Agree doc' element q :=
  fun r hr => h r (hpq r hr)

theorem pathValue_agree {key : String}
    (h : doc.Agree doc' element fun r => (Path.parse key element.isSome).toOption.map (·.root) = some r) :
    pathValue doc element key = pathValue doc' element key := by
  unfold pathValue
  cases hpath : Path.parse key element.isSome with
  | error e => rfl
  | ok path =>
    have hroot := h path.root (by simp [hpath, Except.toOption])
    dsimp only
    rw [Path.resolve, Path.resolve, hroot]

/-- Inside `$any` every path starts at `@`. -/
theorem mentions_inAny :
    (∀ v : Value, ∀ r, mentions r true v = true → r = .element) ∧ ∀ _ : List (String × Value), True := by
  refine filter_induct (fun map ih => ⟨fun r hr => ?_, trivial⟩) fun v hv r hr => ?_
  · rw [mentions_object] at hr
    obtain ⟨⟨key, value⟩, hm, hr⟩ := List.any_eq_true.mp hr
    obtain ⟨hF, -, hitems⟩ := ih _ hm
    unfold clauseMentions at hr
    cases hk : clauseKey key with
    | and | or =>
      cases value with
      | array items =>
        simp only [hk] at hr
        obtain ⟨i, hi, hr⟩ := List.any_eq_true.mp hr
        exact hitems items rfl i hi r hr
      | _ => simp [hk] at hr
    | not =>
      simp only [hk] at hr
      exact hF r hr
    | path =>
      simp only [hk] at hr
      cases hpath : Path.parse key true with
      | error e => simp [hpath, Except.toOption] at hr
      | ok path =>
        rw [← (show path.root = r by simpa [hpath, Except.toOption] using hr)]
        exact (Path.parse_ok hpath).1.mpr rfl
    | _ => simp [hk] at hr
  · cases v with
    | object map => exact absurd rfl (hv map)
    | _ => simp [mentions] at hr

/-- Inside `$any` all documents agree. -/
theorem agree_inAny (doc doc' : Doc) (item v : Value) : doc.Agree doc' (some item) (mentions · true v) := by
  intro r hr
  rw [mentions_inAny.1 v r hr]
  rfl

/-- What a clause reads, given this of the filters and operators that it holds. -/
theorem readClause_agree {m : String × Value}
    (hagree : doc.Agree doc' element (clauseMentions · element.isSome m))
    (hF : doc.Agree doc' element (mentions · element.isSome m.2) → readFilter doc element m.2 = readFilter doc' element m.2)
    (hO : ∀ ops, m.2 = .object ops → ∀ value, readOps doc value ops = readOps doc' value ops)
    (hitems : ∀ items, m.2 = .array items → ∀ i ∈ items, doc.Agree doc' element (mentions · element.isSome i) →
      readFilter doc element i = readFilter doc' element i) :
    readClause doc element m = readClause doc' element m := by
  obtain ⟨key, value⟩ := m
  unfold clauseMentions at hagree
  unfold readClause
  cases hk : clauseKey key with
  | and =>
    cases value with
    | array items =>
      simp only [hk] at hagree ⊢
      exact all_congr_mem fun i hi => hitems items rfl i hi (hagree.mono fun r hr => List.any_eq_true.mpr ⟨i, hi, hr⟩)
    | _ => rfl
  | or =>
    cases value with
    | array items =>
      simp only [hk] at hagree ⊢
      exact any_congr_mem fun i hi => hitems items rfl i hi (hagree.mono fun r hr => List.any_eq_true.mpr ⟨i, hi, hr⟩)
    | _ => rfl
  | not =>
    simp only [hk] at hagree ⊢
    rw [hF hagree]
  | path =>
    cases value with
    | object ops =>
      simp only [hk] at hagree ⊢
      rw [pathValue_agree hagree, hO ops rfl]
    | _ => rfl
  | _ => rfl

/-- An operator reads its value alone. -/
theorem readOp_agree {value : Option Value} {o : String × Value}
    (hF : ∀ item, readFilter doc (some item) o.2 = readFilter doc' (some item) o.2)
    (hO : ∀ ops, o.2 = .object ops → ∀ value, readOps doc value ops = readOps doc' value ops) :
    readOp doc value o = readOp doc' value o := by
  obtain ⟨name, operand⟩ := o
  by_cases hn : opName name = .any
  · cases operand with
    | object map =>
      have hany : ∀ item, readAny doc item map = readAny doc' item map := by
        intro item
        unfold readAny
        rw [hO map rfl, hF item]
      unfold readOp
      rw [if_pos hn, if_pos hn]
      split
      · rename_i items map' heq
        cases heq
        exact any_congr_mem fun item _ => hany item
      · rfl
    | _ => rw [readOp_any_other hn (by simp), readOp_any_other hn (by simp)]
  · unfold readOp
    rw [if_neg hn, if_neg hn]

/-- Documents that agree on what is mentioned read the same. -/
theorem read_agree :
    (∀ v : Value, ∀ doc doc' element, Doc.Agree doc doc' element (mentions · element.isSome v) →
      readFilter doc element v = readFilter doc' element v) ∧
    ∀ ops : List (String × Value), ∀ doc doc' value, readOps doc value ops = readOps doc' value ops := by
  refine filter_induct (fun map ih => ⟨fun doc doc' element hagree => ?_, fun doc doc' value => ?_⟩)
    fun v hv doc doc' element _ => ?_
  · rw [readFilter_object, readFilter_object]
    refine all_congr_mem fun m hm => ?_
    obtain ⟨hF, hO, hitems⟩ := ih m hm
    refine readClause_agree (hagree.mono fun r hr => ?_) (hF doc doc' element) (fun ops h => hO ops h doc doc')
      fun items h i hi => hitems items h i hi doc doc' element
    rw [mentions_object]
    exact List.any_eq_true.mpr ⟨m, hm, hr⟩
  · rw [readOps_eq, readOps_eq]
    refine all_congr_mem fun m hm => ?_
    obtain ⟨hF, hO, -⟩ := ih m hm
    exact readOp_agree (fun item => hF doc doc' (some item) (agree_inAny doc doc' item m.2)) fun ops h => hO ops h doc doc'
  · cases v with
    | object map => exact absurd rfl (hv map)
    | _ => simp [readFilter]

/-- **A filter matches two documents alike that agree on its roots.** -/
theorem matches_agree {ft : FloatText} {src : Value} {f : Filter} (h : f.Of ft src)
    (hagree : doc.Agree doc' none f.roots.has) : f.matches doc = f.matches doc' := by
  rw [h.matches_normal, h.matches_normal]
  refine read_agree.1 _ _ _ _ fun r hr => ?_
  rcases eq_or_ne r .element with rfl | hne
  · rfl
  · exact hagree r (h.roots r hne ▸ hr)

end Iii.Filter

namespace Iii
open Filter

/-- **The roots of a filter bound what it reads**, whichever way it was compiled: it matches alike two documents that
have the same under every root whose flag is set, and with no flag set all documents are alike to it. -/
theorem Filter.roots_bound {ft : FloatText} {src : Value} {limit : SizeLimit} {f : Filter}
    (h : Filter.fromParsed <$> Parsed.parse ft src limit = .ok f) :
    (∀ doc doc' : Doc, doc.Agree doc' none f.roots.has → f.matches doc = f.matches doc') ∧
      (f.roots = {} → ∀ doc doc' : Doc, f.matches doc = f.matches doc') := by
  have hof := Filter.of_parsed ft h
  refine ⟨fun doc doc' hagree => matches_agree hof hagree, fun hroots doc doc' => matches_agree hof ?_⟩
  intro r hr
  rw [hroots] at hr
  cases r <;> cases hr

/-- The document of `tagsDoc` with an error besides, which the filter does not ask for. -/
def tagsDocFailed : Doc := Doc.fromValue (.object [("input", tagsInput), ("error", .string "down")])

theorem Filter.roots_bound_tags : ∃ f, Filter.parse .exact tagsFilter = .ok f ∧
    f.roots = { input := true } ∧ f.matches tagsDoc = f.matches tagsDocFailed := by
  obtain ⟨f, hf⟩ := tagsFilter_parses
  have hroots : f.roots = { input := true } := by
    have hof := Filter.of_parse .exact hf
    refine Roots.ext_has fun r hr => ?_
    rw [hof.roots r hr, mentions_normal]
    cases r with
    | element => exact absurd rfl hr
    | _ => rfl
  refine ⟨f, hf, hroots, (@Filter.roots_bound .exact tagsFilter .enforce f hf).1 _ _ ?_⟩
  intro r hr
  rw [hroots] at hr
  cases r with
  | input => rfl
  | _ => cases hr

end Iii
