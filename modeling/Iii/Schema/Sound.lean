import Iii.Filter.Correct
import Iii.Schema.Paths

/-! What a refused path says of the instances.

A path that a format rules out should have a value in no instance. The walk of the checker reads a schema in one way at
each segment, and what it concludes is right as long as that is the only way to read it: `SureStep` is that condition.
A canonical decimal is an index and a key, so the declared types must leave one of the two; `items` must be what is put
to the item, and not `prefixItems`; and where a path ends, `null` must not slip through a nullable wrapper around
`false`. Each step keeps the instance valid under the schema that it goes on with (`select_valid`, `step_valid`), so a
walk and a chain do, and what is refused is nowhere (`Filter.checkSchemaPaths_sound`). -/
namespace Iii.Schema
open Filter

/-! ### Instances and paths -/

/-- The instance has a value at the path, in some element wherever the path goes on inside an array. -/
def hasValue : (v : Value) → List (List Segment) → Bool
  | _, [] => true
  | v, segments :: rest =>
    match Segment.walk segments v with
    | none => false
    | some w =>
      rest.isEmpty ||
        match w with
        | .array items => items.any fun item => hasValue item rest
        | _ => false

/-! ### The schemas that are gone through -/

/-- The schema objects that `resolve` comes by. -/
def visited (document : Value) : (hops : Nat) → (schema : Value) → List Members
  | hops + 1, .object object =>
    object ::
      match hop document object with
      | .through next => visited document hops next
      | _ => []
  | _, _ => []

/-- The references that are followed hold no `%`. -/
def PlainRefs (document schema : Value) : Prop :=
  ∀ o ∈ visited document maxHops schema, ∀ r, Json.get? o "$ref" = some (.string r) → '%' ∉ r.toList

/-- A type that is declared on the way rules `ty` out. -/
def RulesOut (document schema : Value) (ty : String) : Prop :=
  ∃ o ∈ visited document maxHops schema, (∃ t, Json.get? o "type" = some (.string t) ∨
    ∃ ts, Json.get? o "type" = some (.array ts)) ∧ declares o ty = false

/-- No nullable wrapper is taken for its other branch. -/
def NotNullable (document schema : Value) : Prop := ∀ o ∈ visited document maxHops schema, nullable o = none

/-- The segment is taken for an index into `items`. -/
def readsItems (object : Members) (segment : Segment) : Bool :=
  segment.index.isSome && (Json.get? (membersAt object "properties") segment.key).isNone &&
    match Json.get? object "items" with
    | some (.object _) | some (.bool _) => true
    | _ => false

section Sure
variable (ft : FloatText) (document : Value)

/-- The step reads the schema in the only way it can be read. -/
structure SureStep (schema : Value) (segment : Segment) (last : Prop) : Prop where
  refs : PlainRefs document schema
  /-- An index into `items` that no object and no item of `prefixItems` is under, or a key that no array is under. -/
  index : ∀ object, resolve document maxHops schema = .ok (.object object) → ∀ i, segment.index = some i →
    if readsItems object segment then
      RulesOut document schema "object" ∧ (branchesAt object "prefixItems").bind (·[i]?) = none
    else RulesOut document schema "array"
  target : ∀ next, select ft document schema segment = .next next →
    PlainRefs document next ∧ (last → NotNullable document next)

def SurePath : (schema : Value) → List Segment → Prop
  | _, [] => True
  | schema, segment :: rest => SureStep ft document schema segment (rest = []) ∧
      ∀ next, step ft document schema segment = .next next → SurePath next rest

/-- The schema at the end of a walk. -/
def schemaAt : (schema : Value) → List Segment → Option Value
  | schema, [] => some schema
  | schema, segment :: rest =>
    match step ft document schema segment with
    | .next next => schemaAt next rest
    | _ => none

/-- The elements of an array are under `items` alone. -/
structure SureItems (schema : Value) : Prop where
  refs : PlainRefs document schema
  items : ∀ object, resolve document maxHops schema = .ok (.object object) →
    ∀ branches, branchesAt object "prefixItems" = some branches → branches = []

def SureChain : (schema : Value) → List (List Segment) → Prop
  | _, [] => True
  | schema, segments :: rest => SurePath ft document schema segments ∧
      (rest ≠ [] → ∀ s, schemaAt ft document schema segments = some s → SureItems document s ∧
        ∀ items, itemsOf ft document s = .ok items → SureChain items rest)

end Sure

/-! ### Resolving -/

section Resolve
variable {d : Dialect} {document : Value}

variable {object : Members} {v : Value}

theorem null_of_isNullSchema {schema : Value} (h : isNullSchema schema = true) (hv : Valid d document schema v) :
    v = .null := by
  cases schema with
  | object object =>
    have htype := (meets_of_valid hv).type
    rw [isNullSchema, decide_eq_true_iff] at h
    unfold typeOk at htype
    rw [h] at htype
    cases v with
    | number n => cases n <;> simp [typeNames] at htype <;> split at htype <;> simp at htype
    | null => rfl
    | _ => simp [typeNames] at htype
  | _ => cases h

theorem refTarget_plain {r : String} (h : '%' ∉ r.toList) {target : Value}
    (htarget : localPointer document r = some target) : refTarget d document r = some target := by
  unfold localPointer at htarget
  split at htarget
  · rename_i rest hr
    have hplain : d.fragment rest = rest := d.plain rest fun hmem => h (hr ▸ List.mem_cons_of_mem _ hmem)
    rw [refTarget, hr]
    show pointer document (d.fragment rest) = some target
    rw [hplain, ← htarget]
    split_ifs with hnil
    · rw [hnil]
      rfl
    · rfl
  · cases htarget

theorem singleBranch_some {branch : Value} (h : singleBranch object = some branch) :
    branchesAt object "allOf" = some [branch] := by
  unfold singleBranch at h
  split at h
  · split at h
    · cases h
    · rename_i hget _
      cases h
      rw [branchesAt, hget]
  · cases h

theorem nullableBranch_some {keyword : String} {only : Value} (h : nullableBranch object keyword = some only) :
    ∃ branches, branchesAt object keyword = some branches ∧
      branches.filter (fun b => !isNullSchema b) = [only] := by
  unfold nullableBranch at h
  split at h
  · split at h
    · cases h
    · rename_i branches hget _
      split at h
      · rename_i only' hfilter
        cases h
        refine ⟨branches, ?_, hfilter⟩
        rw [branchesAt, hget]
      · cases h
  · cases h

/-- Apart from `null`, a nullable wrapper takes what its other branch takes. -/
theorem valid_nullable {only : Value} (h : nullable object = some only) (hmeets : Meets d document object v)
    (hv : v ≠ .null) : Valid d document only v := by
  obtain ⟨keyword, hmem, hkeyword⟩ := List.exists_of_findSome?_eq_some h
  obtain ⟨branches, hbranches, hfilter⟩ := nullableBranch_some hkeyword
  have hbranch : ∃ branch ∈ branches, Valid d document branch v := by
    simp only [List.mem_cons, List.not_mem_nil, or_false] at hmem
    rcases hmem with rfl | rfl
    · exact hmeets.anyOf branches hbranches
    · exact hmeets.oneOf branches hbranches
  obtain ⟨branch, hbranch, hvalid⟩ := hbranch
  have hnull : isNullSchema branch = false := by
    by_contra hnull
    exact hv (null_of_isNullSchema (by simpa using hnull) hvalid)
  have honly : branch ∈ branches.filter fun b => !isNullSchema b :=
    List.mem_filter.mpr ⟨hbranch, by rw [hnull]; rfl⟩
  rw [hfilter, List.mem_singleton] at honly
  exact honly ▸ hvalid

theorem mem_applied_ref {target : Value} {r : String} (hget : Json.get? object "$ref" = some (.string r))
    (htarget : refTarget d document r = some target) :
    (target, v) ∈ applied d document object v := by
  unfold applied
  rw [hget]
  dsimp only
  rw [htarget]
  exact List.mem_append_left _ (List.mem_append_left _ List.mem_cons_self)

theorem mem_applied_allOf {branch : Value} {branches : List Value}
    (hbranches : branchesAt object "allOf" = some branches) (h : branch ∈ branches) :
    (branch, v) ∈ applied d document object v := by
  unfold applied
  rw [hbranches]
  exact List.mem_append_left _ (List.mem_append_right _ (List.mem_map.mpr ⟨branch, h, rfl⟩))

/-- A hop leads to a schema that is put to the instance itself. -/
theorem hop_valid {next : Value} (h : hop document object = .through next) (hmeets : Meets d document object v)
    (hrefs : ∀ r, Json.get? object "$ref" = some (.string r) → '%' ∉ r.toList)
    (hnull : v ≠ .null ∨ nullable object = none) : Valid d document next v := by
  unfold hop at h
  cases href : Json.get? object "$ref" with
  | some reference =>
    rw [href] at h
    dsimp only at h
    split at h
    · cases h
    · cases reference with
      | string r =>
        dsimp only at h
        cases htarget : localPointer document r with
        | none =>
          rw [htarget] at h
          cases h
        | some target =>
          rw [htarget] at h
          cases h
          exact hmeets.applied _ (mem_applied_ref href (refTarget_plain (hrefs r href) htarget))
      | _ => cases h
  | none =>
    rw [href] at h
    dsimp only at h
    split at h
    · cases h
    · cases hbranch : singleBranch object with
      | some branch =>
        rw [hbranch] at h
        cases h
        exact hmeets.applied _ (mem_applied_allOf (singleBranch_some hbranch) List.mem_cons_self)
      | none =>
        rw [hbranch] at h
        dsimp only at h
        cases honly : nullable object with
        | some only =>
          rw [honly] at h hnull
          cases h
          exact valid_nullable honly hmeets (hnull.resolve_right nofun)
        | none =>
          rw [honly] at h
          cases h

/-- What is valid under a schema is valid under all that resolving it goes through. -/
theorem resolve_valid (hops : Nat) {schema : Value} (hvalid : Valid d document schema v)
    (hrefs : ∀ o ∈ visited document hops schema, ∀ r, Json.get? o "$ref" = some (.string r) → '%' ∉ r.toList)
    (hnull : v ≠ .null ∨ ∀ o ∈ visited document hops schema, nullable o = none) :
    (∀ o ∈ visited document hops schema, Valid d document (.object o) v) ∧
      ∀ s, resolve document hops schema = .ok s → Valid d document s v := by
  induction hops generalizing schema with
  | zero =>
    refine ⟨fun o ho => ?_, fun s hs => ?_⟩
    · cases schema <;> cases ho
    · cases hs
  | succ hops ih =>
    cases schema with
    | object object =>
      rw [visited] at hrefs hnull ⊢
      rw [List.forall_mem_cons] at hrefs hnull ⊢
      rw [resolve]
      cases hhop : hop document object with
      | stay =>
        refine ⟨⟨hvalid, by simp⟩, fun s hs => ?_⟩
        cases hs
        exact hvalid
      | through next =>
        rw [hhop] at hrefs hnull
        have hnext := hop_valid hhop (meets_of_valid hvalid) hrefs.1 (hnull.imp_right fun h => h.1)
        obtain ⟨hall, hok⟩ := ih hnext hrefs.2 (hnull.imp_right fun h => h.2)
        exact ⟨⟨hvalid, hall⟩, hok⟩
      | stuck reason =>
        refine ⟨⟨hvalid, by simp⟩, fun s hs => ?_⟩
        cases hs
    | _ =>
      refine ⟨fun o ho => (by cases ho), fun s hs => ?_⟩
      cases hs
      exact hvalid

/-- A container that is valid under a schema has none of the types that are ruled out. -/
theorem not_rulesOut {schema : Value} {ty : String} (hvalid : Valid d document schema v)
    (hrefs : PlainRefs document schema) (hv : v ≠ .null) (htypes : typeNames v = [ty]) :
    ¬ RulesOut document schema ty := by
  rintro ⟨o, ho, ⟨t, htype⟩, hdeclares⟩
  have hok := (meets_of_valid ((resolve_valid maxHops hvalid hrefs (.inl hv)).1 o ho)).type
  unfold typeOk at hok
  unfold declares at hdeclares
  rw [htypes] at hok
  rcases htype with htype | ⟨ts, htype⟩
  · rw [htype] at hok hdeclares
    simp only [List.contains_eq_mem, List.mem_singleton, decide_eq_true_eq, decide_eq_false_iff_not] at hok hdeclares
    exact hdeclares hok
  · rw [htype] at hok hdeclares
    obtain ⟨name, hname, hmatch⟩ := List.any_eq_true.mp hok
    have hnot := List.any_eq_false.mp hdeclares name hname
    cases name with
    | string name =>
      simp only [List.contains_eq_mem, List.mem_singleton, decide_eq_true_eq] at hmatch
      rw [hmatch] at hnot
      exact hnot (decide_eq_true rfl)
    | _ => cases hmatch

end Resolve

/-! ### One step -/

section Step
variable {ft : FloatText} {d : Dialect} {document : Value}

variable {schema : Value} {segment : Segment} {object : Members}

theorem mem_applied_member {m : String × Value} {members : Members} (hm : m ∈ members)
    (h : schema ∈ memberSchemas d object m.1) :
    (schema, m.2) ∈ applied d document object (.object members) :=
  List.mem_append_right _ (List.mem_flatMap.mpr ⟨m, hm, List.mem_map.mpr ⟨schema, h, rfl⟩⟩)

theorem mem_applied_item {items : List Value} {i : Nat} {w : Value} (hw : items[i]? = some w)
    (h : schema ∈ itemSchemas object i) : (schema, w) ∈ applied d document object (.array items) := by
  refine List.mem_append_right _ (List.mem_flatMap.mpr ⟨(w, i), ?_, List.mem_map.mpr ⟨schema, h, rfl⟩⟩)
  rw [List.mem_zipIdx_iff_getElem?]
  exact hw

/-- The step leads to the schema; being refused is to be led to `false`. -/
def Leading (s : Step) (schema : Value) : Prop := s = .next schema ∨ s = .notInSchema ∧ schema = .bool false

theorem not_leading_unverified {reason : Reason} : ¬ Leading (.unverified reason) schema := by
  rintro (h | ⟨h, -⟩) <;> cases h

/-- Where no property is named and no pattern given, `additionalProperties` is all there is to a member. -/
theorem selectKey_leads {index : Bool} (h : Leading (selectKey ft object index) schema)
    (hnamed : Json.get? (membersAt object "properties") segment.key = none) :
    schema ∈ memberSchemas d object segment.key := by
  unfold selectKey at h
  cases hkeyword : unresolved.find? (containsKey object) with
  | some keyword =>
    rw [hkeyword] at h
    exact absurd h not_leading_unverified
  | none =>
    rw [hkeyword] at h
    dsimp only at h
    have hmatched : membersAt object "patternProperties" = [] := by
      have hpattern := List.find?_eq_none.mp hkeyword "patternProperties" (by decide)
      rw [containsKey, Option.not_isSome_iff_eq_none] at hpattern
      rw [membersAt, hpattern]
    have hadditional : Json.get? object "additionalProperties" = some schema := by
      split at h
      · obtain h | ⟨-, rfl⟩ := h
        · cases h
        · assumption
      · obtain h | ⟨h, -⟩ := h
        · cases h
          assumption
        · cases h
      · split at h <;> exact absurd h not_leading_unverified
    unfold memberSchemas
    rw [hnamed, hmatched, hadditional]
    exact List.mem_cons_self

/-- Where a step leads, and what it goes by. -/
theorem selectIn_leads (h : Leading (selectIn ft object segment) schema) :
    readsItems object segment = false ∧ schema ∈ memberSchemas d object segment.key ∨
      readsItems object segment = true ∧ Json.get? object "items" = some schema ∧ ∀ items, schema ≠ .array items := by
  unfold selectIn at h
  cases hnamed : Json.get? (membersAt object "properties") segment.key with
  | some next =>
    rw [hnamed] at h
    obtain h | ⟨h, -⟩ := h
    · cases h
      refine .inl ⟨?_, ?_⟩
      · rw [readsItems, hnamed, Option.isNone_some, Bool.and_false, Bool.false_and]
      · unfold memberSchemas
        rw [hnamed]
        exact List.mem_append_left _ List.mem_cons_self
    · cases h
  | none =>
    rw [hnamed] at h
    dsimp only at h
    by_cases hindex : segment.index.isSome = true
    · rw [if_pos hindex] at h
      cases hitems : Json.get? object "items" with
      | none =>
        rw [hitems] at h
        dsimp only at h
        split at h
        · exact absurd h not_leading_unverified
        · exact .inl ⟨by rw [readsItems, hitems, Bool.and_false], selectKey_leads h hnamed⟩
      | some items =>
        rw [hitems] at h
        cases items with
        | object items =>
          obtain h | ⟨h, -⟩ := h
          · cases h
            exact .inr ⟨by rw [readsItems, hindex, hnamed, hitems]; rfl, rfl, nofun⟩
          · cases h
        | bool items =>
          obtain h | ⟨h, -⟩ := h
          · cases h
            exact .inr ⟨by rw [readsItems, hindex, hnamed, hitems]; rfl, rfl, nofun⟩
          · cases h
        | _ => exact absurd h not_leading_unverified
    · rw [if_neg hindex] at h
      refine .inl ⟨?_, selectKey_leads h hnamed⟩
      rw [readsItems, Bool.not_eq_true _ |>.mp hindex, Bool.false_and, Bool.false_and]

/-- The member or item that a segment leads to is valid under the schema that the step leads to. -/
theorem select_valid {v w next : Value} {last : Prop} (hsure : SureStep ft document schema segment last)
    (hvalid : Valid d document schema v) (hw : segment.step v = some w)
    (h : Leading (select ft document schema segment) next) : Valid d document next w := by
  have hv : v ≠ .null := by
    rintro rfl
    cases hw
  have hresolved := (resolve_valid maxHops hvalid hsure.refs (.inl hv)).2
  unfold select at h
  cases hres : resolve document maxHops schema with
  | error reason =>
    rw [hres] at h
    exact absurd h not_leading_unverified
  | ok s =>
    rw [hres] at h
    have hs := hresolved s hres
    cases s with
    | object object =>
      have hmeets := meets_of_valid hs
      rcases selectIn_leads (d := d) h with ⟨hreads, hmember⟩ | ⟨hreads, hitems, hnarray⟩
      · cases v with
        | object members =>
          exact hmeets.applied _ (mem_applied_member (Json.mem_of_get? hw) hmember)
        | array items =>
          obtain ⟨i, hi, -⟩ := Option.bind_eq_some_iff.mp hw
          have hindex := hsure.index object hres i hi
          rw [hreads] at hindex
          exact absurd hindex (not_rulesOut hvalid hsure.refs hv rfl)
        | _ => cases hw
      · have hsome : segment.index.isSome = true := by
          rw [readsItems, Bool.and_eq_true, Bool.and_eq_true] at hreads
          exact hreads.1.1
        obtain ⟨i, hi⟩ := Option.isSome_iff_exists.mp hsome
        have hindex := hsure.index object hres i hi
        rw [hreads] at hindex
        cases v with
        | object members => exact absurd hindex.1 (not_rulesOut hvalid hsure.refs hv rfl)
        | array items =>
          have hget : items[i]? = some w := by
            rw [Segment.step, hi] at hw
            exact hw
          refine hmeets.applied _ (mem_applied_item hget ?_)
          rw [itemSchemas, hindex.2, hitems]
          cases next with
          | array items => exact absurd rfl (hnarray items)
          | _ => exact List.mem_cons_self
        | _ => cases hw
    | bool b =>
      cases b with
      | false => exact absurd hs (not_valid_false v)
      | true => exact absurd h not_leading_unverified
    | _ => exact absurd h not_leading_unverified

theorem step_valid {v w next : Value} {last : Prop} (hsure : SureStep ft document schema segment last)
    (hvalid : Valid d document schema v) (hw : segment.step v = some w)
    (h : step ft document schema segment = .next next) : Valid d document next w := by
  unfold step at h
  cases hselect : select ft document schema segment with
  | next n =>
    rw [hselect] at h
    dsimp only at h
    split at h
    · cases h
    · cases h
      exact select_valid hsure hvalid hw (.inl hselect)
  | _ =>
    rw [hselect] at h
    cases h

/-- Where a step is refused there is nothing, unless the path goes on and there is `null`. -/
theorem step_refused {v w : Value} {last : Prop} (hsure : SureStep ft document schema segment last)
    (hvalid : Valid d document schema v) (hw : segment.step v = some w)
    (h : step ft document schema segment = .notInSchema) : ¬ last ∧ w = .null := by
  by_contra hnull
  unfold step at h
  cases hselect : select ft document schema segment with
  | next n =>
    rw [hselect] at h
    dsimp only at h
    split at h
    · rename_i hfalse
      obtain ⟨hrefs, hlast⟩ := hsure.target n hselect
      have hn := select_valid hsure hvalid hw (.inl hselect)
      have hgoes : w ≠ .null ∨ NotNullable document n := by
        by_cases hl : last
        · exact .inr (hlast hl)
        · exact .inl fun hw => hnull ⟨hl, hw⟩
      unfold isFalse at hfalse
      split at hfalse
      · rename_i hres
        exact not_valid_false w ((resolve_valid maxHops hn hrefs hgoes).2 _ hres)
      · cases hfalse
    · cases h
  | notInSchema => exact not_valid_false w (select_valid hsure hvalid hw (.inr ⟨hselect, rfl⟩))
  | unverified reason =>
    rw [hselect] at h
    cases h

end Step

/-! ### A walk -/

section Walk
variable {ft : FloatText} {d : Dialect} {document : Value}

/-- Past what could not be followed nothing is refused. -/
theorem walkFrom_none (ft : FloatText) (document : Value) (format : String) (segments : List Segment) (display : String)
    (lost : Option (String × Reason)) :
    ∃ display' lost', walkFrom ft document format segments display none lost = .ok (display', none, lost') := by
  induction segments generalizing display lost with
  | nil => exact ⟨display, lost, rfl⟩
  | cons segment rest ih => exact ih _ _

variable {schema : Value} {segments : List Segment}

/-- **A path that is refused has no value.** -/
theorem walkFrom_refused {format : String} {display : String} {v : Value} {lost : Option (String × Reason)}
    {e : FilterError} (h : walkFrom ft document format segments display (some schema) lost = .error e)
    (hsure : SurePath ft document schema segments) (hvalid : Valid d document schema v) :
    Segment.walk segments v = none := by
  induction segments generalizing display schema v lost with
  | nil => cases h
  | cons segment rest ih =>
    rw [walkFrom] at h
    rw [Segment.walk]
    cases hw : segment.step v with
    | none => rfl
    | some w =>
      cases hstep : step ft document schema segment with
      | next next =>
        rw [hstep] at h
        exact ih h (hsure.2 next hstep) (step_valid hsure.1 hvalid hw hstep)
      | notInSchema =>
        obtain ⟨hlast, rfl⟩ := step_refused hsure.1 hvalid hw hstep
        cases rest with
        | nil => exact absurd rfl hlast
        | cons => rfl
      | unverified reason =>
        rw [hstep] at h
        obtain ⟨_, _, hok⟩ := walkFrom_none ft document format rest (pushEscaped (display ++ ".") segment.key)
          (some (display, reason))
        dsimp only at h
        rw [hok] at h
        cases h

theorem walkFrom_schemaAt {format : String} {display display' : String} {lost lost' : Option (String × Reason)}
    {s : Option Value}
    (h : walkFrom ft document format segments display (some schema) lost = .ok (display', s, lost')) :
    s = schemaAt ft document schema segments := by
  induction segments generalizing display schema lost with
  | nil =>
    cases h
    rfl
  | cons segment rest ih =>
    rw [walkFrom] at h
    rw [schemaAt]
    cases hstep : step ft document schema segment with
    | next next =>
      rw [hstep] at h
      exact ih h
    | notInSchema =>
      rw [hstep] at h
      cases h
    | unverified reason =>
      rw [hstep] at h
      obtain ⟨_, _, hok⟩ := walkFrom_none ft document format rest (pushEscaped (display ++ ".") segment.key)
        (some (display, reason))
      dsimp only at h
      rw [hok] at h
      cases h
      rfl

theorem schemaAt_valid {v w s : Value} (hsure : SurePath ft document schema segments)
    (hvalid : Valid d document schema v) (hs : schemaAt ft document schema segments = some s)
    (hw : Segment.walk segments v = some w) : Valid d document s w := by
  induction segments generalizing schema v with
  | nil =>
    cases hs
    cases hw
    exact hvalid
  | cons segment rest ih =>
    rw [schemaAt] at hs
    obtain ⟨u, hu, hrest⟩ := Option.bind_eq_some_iff.mp hw
    cases hstep : step ft document schema segment with
    | next next =>
      rw [hstep] at hs
      exact ih (hsure.2 next hstep) (step_valid hsure.1 hvalid hu hstep) hs hrest
    | _ =>
      rw [hstep] at hs
      cases hs

/-- Every item of an array is valid under the schema of its elements. -/
theorem items_valid {items : Value} {list : List Value} (hsure : SureItems document schema)
    (hvalid : Valid d document schema (.array list)) (h : itemsOf ft document schema = .ok items) :
    ∀ item ∈ list, Valid d document items item := by
  intro item hitem
  unfold itemsOf at h
  cases hres : resolve document maxHops schema with
  | error reason =>
    rw [hres] at h
    cases h
  | ok s =>
    rw [hres] at h
    have hs := (resolve_valid maxHops hvalid hsure.refs (.inl nofun)).2 s hres
    cases s with
    | object object =>
      obtain ⟨i, hi⟩ := List.mem_iff_getElem?.mp hitem
      refine (meets_of_valid hs).applied _ (mem_applied_item hi ?_)
      have hpre : (branchesAt object "prefixItems").bind (·[i]?) = none := by
        cases hbranches : branchesAt object "prefixItems" with
        | none => rfl
        | some branches => rw [hsure.items object hres branches hbranches]; rfl
      rw [itemSchemas, hpre]
      dsimp only at h ⊢
      cases hget : Json.get? object "items" with
      | some t =>
        rw [hget] at h
        cases t <;> cases h <;> exact List.mem_cons_self
      | none =>
        rw [hget] at h
        dsimp only at h
        split at h
        · cases h
        · split at h
          · split at h <;> cases h
          · cases h
    | _ => cases h

theorem rejects_none {here : At} (h : here.schema = none) (paths : List (List Segment)) : rejects ft here paths = none := by
  induction paths generalizing here with
  | nil => rfl
  | cons segments rest ih =>
    obtain ⟨display, lost, hwalk⟩ := walkFrom_none ft here.document here.format segments here.display none
    have hfollow : follow ft here segments = .ok { here with schema := none, display := display } := by
      unfold follow walk
      rw [h, hwalk]
      rfl
    cases rest with
    | nil => exact not_rejects_last hfollow
    | cons next rest => exact (rejects_more hfollow).trans (ih rfl)

/-- **A chain that is refused leads to no value.** -/
theorem rejects_sound {here : At} {v : Value} {paths : List (List Segment)} {e : FilterError}
    (h : rejects ft here paths = some e) (hschema : here.schema = some schema)
    (hsure : SureChain ft here.document schema paths) (hvalid : Valid d here.document schema v) :
    hasValue v paths = false := by
  induction paths generalizing here schema v with
  | nil => cases h
  | cons segments rest ih =>
    rw [hasValue]
    cases hwalk : walkFrom ft here.document here.format segments here.display (some schema) none with
    | error e' => rw [walkFrom_refused hwalk hsure.1 hvalid]
    | ok r =>
      obtain ⟨display, s, lost⟩ := r
      have hs := walkFrom_schemaAt hwalk
      have hfollow : follow ft here segments = .ok { here with schema := s, display := display } := by
        unfold follow walk
        rw [hschema, hwalk]
        rfl
      cases rest with
      | nil =>
        rw [not_rejects_last hfollow] at h
        cases h
      | cons next rest =>
        rw [rejects_more hfollow] at h
        cases hv : Segment.walk segments v with
        | none => rfl
        | some w =>
          cases w with
          | array list =>
            show (list.any fun item => hasValue item (next :: rest)) = false
            rw [List.any_eq_false]
            intro item hitem
            cases s with
            | none =>
              rw [rejects_none rfl] at h
              cases h
            | some s =>
              obtain ⟨hsureItems, hrest⟩ := hsure.2 (List.cons_ne_nil _ _) s hs.symm
              cases hitems : itemsOf ft here.document s with
              | error reason =>
                rw [rejects_none (by rw [elementOf, Option.bind_some, hitems]; rfl)] at h
                cases h
              | ok items =>
                have hlist := items_valid hsureItems (schemaAt_valid hsure.1 hvalid hs.symm hv) hitems
                rw [Bool.not_eq_true]
                refine ih h ?_ (hrest items hitems) (hlist item hitem)
                rw [elementOf, Option.bind_some, hitems]
                rfl
          | _ => rfl

end Walk

end Iii.Schema

namespace Iii
open Filter Schema

/-- The format that the paths of a root are checked against. -/
def Schema.Checker.formatOf (c : Checker) : Root → Option Value
  | .input => c.requestFormat
  | .output => c.responseFormat
  | _ => none

theorem Schema.Checker.rejects_start {ft : FloatText} {c : Checker} {ch : Chain} {e : FilterError}
    (h : c.rejects ft ch = some e) : ∃ here format, Schema.rejects ft here ch.paths = some e ∧
      c.formatOf ch.root = some format ∧ here.schema = some format ∧ here.document = format := by
  obtain ⟨here, hstart, hrejects⟩ := Option.bind_eq_some_iff.mp h
  refine ⟨here, ?_⟩
  cases hroot : ch.root with
  | input =>
    rw [hroot] at hstart
    obtain ⟨format, hformat, rfl⟩ := Option.map_eq_some_iff.mp hstart
    exact ⟨format, hrejects, hformat, rfl, rfl⟩
  | output =>
    rw [hroot] at hstart
    obtain ⟨format, hformat, rfl⟩ := Option.map_eq_some_iff.mp hstart
    exact ⟨format, hrejects, hformat, rfl, rfl⟩
  | _ =>
    rw [hroot] at hstart
    cases hstart

/-- **What the check refuses is nowhere, where the schema can be read in one way only.** A check that fails does so for
one of the paths of the filter. And for each path that is refused: if every step that the walk takes along it is the
only way to read the schema there, then no instance that is valid under the format has a value at the path. -/
theorem Filter.checkSchemaPaths_sound (ft : FloatText) (f : Filter) (requestFormat responseFormat : Option Value) :
    (∀ e, f.checkSchemaPaths ft requestFormat responseFormat = .error e →
      ∃ ch ∈ Node.chains none f.node, Checker.rejects ft ⟨requestFormat, responseFormat⟩ ch = some e) ∧
    ∀ ch ∈ Node.chains none f.node, ∀ e, Checker.rejects ft ⟨requestFormat, responseFormat⟩ ch = some e →
      ∃ format, Checker.formatOf ⟨requestFormat, responseFormat⟩ ch.root = some format ∧
        (SureChain ft format format ch.paths → ∀ (d : Dialect) (v : Value), Valid d format format v →
          hasValue v ch.paths = false) := by
  refine ⟨fun e h => node_error f.node .top h, fun ch _ e h => ?_⟩
  obtain ⟨here, format, hrejects, hformat, hschema, hdocument⟩ := Checker.rejects_start h
  refine ⟨format, hformat, fun hsure d v hvalid => ?_⟩
  subst hdocument
  exact rejects_sound hrejects hschema hsure hvalid

/-- `{ path: { "$exists": true } }`. -/
def Schema.existsAt (path : String) : Value := .object [(path, .object [("$exists", .bool true)])]

/-- A closed object with one property. -/
def Schema.tableFormat : Value := .object
  [("type", .string "object"), ("properties", .object [("table", .bool true)]), ("additionalProperties", .bool false)]

/-- A typo under a closed format is refused, and nothing is at it. -/
theorem Filter.checkSchemaPaths_sound_typo : ∃ f e, Filter.parse .exact (existsAt "input.tabel") = .ok f ∧
    f.checkSchemaPaths .exact (some tableFormat) none = .error e ∧
    ∃ ch ∈ Node.chains none f.node, Checker.rejects .exact ⟨some tableFormat, none⟩ ch = some e ∧
      ∀ (d : Dialect) (v : Value), Valid d tableFormat tableFormat v → hasValue v ch.paths = false := by
  have hcheck : (Filter.parse .exact (existsAt "input.tabel")).toOption.any (fun f =>
      (f.checkSchemaPaths .exact (some tableFormat) none).isOk = false ∧
        (Node.chains none f.node).map (fun ch => (ch.root, ch.paths)) = [(.input, [[⟨"tabel", none⟩]])]) = true := by
    decide +kernel
  obtain ⟨f, hf⟩ : ∃ f, Filter.parse .exact (existsAt "input.tabel") = .ok f := by
    cases hf : Filter.parse .exact (existsAt "input.tabel") with
    | ok f => exact ⟨f, rfl⟩
    | error e =>
      rw [hf] at hcheck
      cases hcheck
  rw [hf] at hcheck
  obtain ⟨herror, hchains⟩ := of_decide_eq_true hcheck
  obtain ⟨hrejected, hsound⟩ := Filter.checkSchemaPaths_sound .exact f (some tableFormat) none
  cases he : f.checkSchemaPaths .exact (some tableFormat) none with
  | ok warnings =>
    rw [he] at herror
    cases herror
  | error e =>
    obtain ⟨ch, hmem, hch⟩ := hrejected e he
    have hone : (ch.root, ch.paths) = (.input, [[⟨"tabel", none⟩]]) := by
      have hin := List.mem_map_of_mem (f := fun ch : Chain => (ch.root, ch.paths)) hmem
      rw [hchains] at hin
      exact List.mem_singleton.mp hin
    obtain ⟨hroot, hpaths⟩ := Prod.mk.inj hone
    obtain ⟨format, hformat, hnowhere⟩ := hsound ch hmem e hch
    rw [hroot] at hformat
    cases hformat
    refine ⟨f, e, hf, he, ch, hmem, hch, hnowhere ?_⟩
    have hvisited : ∀ o ∈ visited tableFormat maxHops tableFormat, Json.get? o "$ref" = none := by decide
    rw [hpaths]
    refine ⟨⟨⟨fun o ho r hr => ?_, nofun, fun next hnext => ?_⟩, fun _ _ => trivial⟩, fun hne => absurd rfl hne⟩
    · rw [hvisited o ho] at hr
      cases hr
    · cases hnext

/-! ### Where there is more than one way -/

/-- A dialect with the keywords that are read here, and no others. -/
def Schema.plainDialect : Dialect where
  pattern _ _ := false
  other _ _ := true
  fragment s := s
  plain _ _ := rfl

/-- The filter is refused because of a path that has a value in a valid instance. -/
def Schema.WronglyRefused (src format v : Value) : Prop :=
  ∃ f e, Filter.parse .exact src = .ok f ∧ f.checkSchemaPaths .exact (some format) none = .error e ∧
    ∃ ch ∈ Node.chains none f.node, Checker.rejects .exact ⟨some format, none⟩ ch = some e ∧
      Valid plainDialect format format v ∧ hasValue v ch.paths = true

/-- The same, computed. -/
def Schema.wronglyRefused (src format v : Value) : Bool :=
  match Filter.parse .exact src with
  | .error _ => false
  | .ok f =>
    match f.checkSchemaPaths .exact (some format) none with
    | .ok _ => false
    | .error e => (Node.chains none f.node).any fun ch =>
        Checker.rejects .exact ⟨some format, none⟩ ch = some e &&
          validates plainDialect format 8 format v = some true && hasValue v ch.paths

theorem Schema.wronglyRefused_sound {src format v : Value} (h : wronglyRefused src format v = true) :
    WronglyRefused src format v := by
  unfold wronglyRefused at h
  cases hf : Filter.parse .exact src with
  | error e =>
    rw [hf] at h
    cases h
  | ok f =>
    rw [hf] at h
    dsimp only at h
    cases he : f.checkSchemaPaths .exact (some format) none with
    | ok warnings =>
      rw [he] at h
      cases h
    | error e =>
      rw [he] at h
      obtain ⟨ch, hmem, hch⟩ := List.any_eq_true.mp h
      rw [Bool.and_eq_true, Bool.and_eq_true, decide_eq_true_iff, decide_eq_true_iff] at hch
      exact ⟨f, e, hf, he, ch, hmem, hch.1.1, ⟨8, hch.1.2⟩, hch.2⟩

/-- A closed object: `{ "type": "object", "additionalProperties": false }`. -/
def Schema.closedObject : Value := .object [("type", .string "object"), ("additionalProperties", .bool false)]

/-- The readings that the walk misses: an item under `prefixItems`, for a path and for the elements of an array; a
member where it goes by `items`; an item where it goes by `properties` or `additionalProperties`; `null`, where a
nullable wrapper is around `false`. -/
theorem Filter.checkSchemaPaths_refuses_values :
    WronglyRefused (existsAt "input.0.x")
      (.object [("type", .string "array"), ("prefixItems", .array [.bool true]), ("items", .bool false)])
      (.array [.object [("x", .null)]]) ∧
    WronglyRefused (.object [("input", .object [("$any", existsAt "@.x")])])
      (.object [("type", .string "array"), ("prefixItems", .array [.bool true]), ("items", closedObject)])
      (.array [.object [("x", .null)]]) ∧
    WronglyRefused (existsAt "input.0") (.object [("items", .bool false)]) (.object [("0", .null)]) ∧
    WronglyRefused (existsAt "input.0") (.object [("properties", .object [("0", .bool false)])]) (.array [.null]) ∧
    WronglyRefused (existsAt "input.0") (.object [("additionalProperties", .bool false)]) (.array [.null]) ∧
    WronglyRefused (existsAt "input.a")
      (.object [("type", .string "object"), ("properties", .object
        [("a", .object [("anyOf", .array [.bool false, .object [("type", .string "null")]])])])])
      (.object [("a", .null)]) := by
  refine ⟨?_, ?_, ?_, ?_, ?_, ?_⟩ <;> exact wronglyRefused_sound (by decide +kernel)

end Iii
