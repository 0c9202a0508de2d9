import Iii.Node.Strings
import Iii.Sdk.Agree

/-! The Node evaluator's operators, paths and elements against the language.

The loop of `jsonEquals` is related to the engine's recursion by its stack: it answers
whether every pair on it is equal (`equalsLoop_eq`). `num` is how the numbers of a
filter come out of the JSON copy; they keep their values. -/
namespace Iii.Node
open Filter Sdk

/-! ### Equality -/

/-- A value of a document. -/
abbrev docValue (d : Src) : JsValue := hostValue code NumText.double d

theorem arrayElement_eq {hs : List JsValue} {i : Nat} (h : i < hs.length) :
    arrayElement hs i = some hs[i] := by
  simp [arrayElement, jsonView, List.getElem?_eq_getElem h]

theorem elements_eq (hs : List JsValue) :
    (List.range hs.length).map (arrayElement hs) = hs.map some := by
  refine List.ext_getElem (by simp) fun i hi hi' => ?_
  rw [List.getElem_map, List.getElem_map, List.getElem_range]
  exact arrayElement_eq (by simpa using hi')

theorem holdsExactly_eq {limit present : Nat} (hs : List (Units × JsValue)) (h : present ≤ limit) :
    holdsExactly limit present hs = decide (present + hs.length = limit) := by
  induction hs generalizing present with
  | nil => rfl
  | cons m rest ih =>
    simp only [holdsExactly, jsonView]
    split_ifs with hmore
    · rw [eq_comm, decide_eq_false_iff_not, List.length_cons]
      omega
    · rw [ih (by omega), decide_eq_decide, List.length_cons]
      omega

/-- The members of one object beside those of another under the same keys. -/
def partners (ds : List (String × Src)) : List (String × Src) → Option (List (Src × Src))
  | [] => some []
  | l :: rest =>
    match Json.get? ds l.1 with
    | none => none
    | some d => (partners ds rest).map ((d, l.2) :: ·)

theorem partners_iff (ds ls : List (String × Src)) (eq : Src → Src → Bool) :
    (∃ ps, partners ds ls = some ps ∧ ps.all (fun p => eq p.1 p.2) = true) ↔
      ∀ l ∈ ls, ∃ d, Json.get? ds l.1 = some d ∧ eq d l.2 = true := by
  induction ls with
  | nil => simp [partners]
  | cons l rest ih =>
    rw [List.forall_mem_cons, ← ih, partners]
    cases Json.get? ds l.1 with
    | none => simp
    | some d =>
      cases partners ds rest with
      | none => simp
      | some ps => simp only [Option.map_some, Option.some.injEq, exists_eq_left', List.all_cons,
          Bool.and_eq_true]

theorem partners_mem {ds ls : List (String × Src)} {ps : List (Src × Src)}
    (h : partners ds ls = some ps) : ps.map (·.2) = ls.map (·.2) ∧
      ∀ p ∈ ps, (∃ d ∈ ds, d.2 = p.1) ∧ ∃ l ∈ ls, l.2 = p.2 := by
  induction ls generalizing ps with
  | nil =>
    cases h
    simp
  | cons l rest ih =>
    rw [partners] at h
    cases hget : Json.get? ds l.1 with
    | none =>
      rw [hget] at h
      cases h
    | some d =>
      rw [hget] at h
      obtain ⟨ps', hps, rfl⟩ := Option.map_eq_some_iff.mp h
      obtain ⟨hmap, hmem⟩ := ih hps
      refine ⟨by rw [List.map_cons, List.map_cons, hmap], ?_⟩
      rw [List.forall_mem_cons]
      refine ⟨⟨⟨_, Json.mem_of_get? hget, rfl⟩, l, List.mem_cons_self .., rfl⟩, ?_⟩
      intro p hp
      obtain ⟨hd, m, hm, heq⟩ := hmem p hp
      exact ⟨hd, m, List.mem_cons_of_mem _ hm, heq⟩

section Equals
variable {num : NumText → F64}

/-- A pair on the stack. -/
def hostPair (num : NumText → F64) (p : Src × Src) : JsonView × JsValue :=
  (some (docValue p.1), hostValue code num p.2)

theorem pairMembers_eq (ds ls : List (String × Src)) :
    pairMembers (hostMembers code NumText.double ds) (hostMembers code num ls) =
      (partners ds ls).map (List.map (hostPair num)) := by
  induction ls with
  | nil => rfl
  | cons l rest ih =>
    have hget : objectMember (hostMembers code NumText.double ds) (code.text l.1) =
        (Json.get? ds l.1).map docValue := by
      rw [objectMember, hostMembers, Json.get?_map code.text_injective]
      cases Json.get? ds l.1 <;> rfl
    have hcons : hostMembers code num (l :: rest) =
        (code.text l.1, hostValue code num l.2) :: hostMembers code num rest := rfl
    rw [hcons, pairMembers, hget, partners, ih]
    cases Json.get? ds l.1 with
    | none => rfl
    | some d => cases partners ds rest <;> rfl

theorem scalarEquals_eq (hnum : ∀ t, (num t).value = t.double.value) (d : Src) {l : Src}
    (hl : l.depth = 0) :
    scalarEquals (some (docValue d)) (hostValue code num l) = jsonEq (engine d) (engine l) := by
  cases l with
  | array items =>
    rw [Json.depth] at hl
    omega
  | object members =>
    rw [Json.depth] at hl
    omega
  | string s =>
    cases d with
    | string s' =>
      show decide (code.text s' = code.text s) = decide (s' = s)
      rw [decide_eq_decide, code.text_inj]
    | _ => rfl
  | number t =>
    cases d with
    | number t' =>
      show decide (t'.double.value = (num t).value) = decide (t'.serde.asF64 = t.serde.asF64)
      rw [hnum, NumText.asF64_serde, NumText.asF64_serde]
    | _ => rfl
  | _ => cases d <;> rfl

theorem counts_eq {ps : List (Src × Src)} {ls : List Src} (h : ps.map (·.2) = ls) :
    (ps.map fun p => p.2.count) = ls.map fun j => j.count := by
  rw [← h, List.map_map]
  rfl

/-- The elements of two arrays of one length, paired. -/
theorem zip_elements {ds ls : List Src} (hlen : ds.length = ls.length) :
    ((List.range (ls.map (hostValue code num)).length).map (arrayElement (ds.map docValue))).zip
      (ls.map (hostValue code num)) = (ds.zip ls).map (hostPair num) := by
  have helements : (List.range (ls.map (hostValue code num)).length).map
      (arrayElement (ds.map docValue)) = (ds.map docValue).map some := by
    rw [← elements_eq, List.length_map, List.length_map, hlen]
  rw [helements, List.map_map, List.zip_map]
  rfl

theorem jsonEq_zip {ds ls : List Src} (hlen : ds.length = ls.length) :
    jsonEq (engine (.array ds)) (engine (.array ls)) =
      (ds.zip ls).all fun p => jsonEq (engine p.1) (engine p.2) := by
  rw [Bool.eq_iff_iff, jsonEq_array, List.forall₂_iff_zip, List.all_eq_true]
  simp [hlen]

/-- **The loop answers whether every pair on its stack is equal.** -/
theorem equalsLoop_eq (hnum : ∀ t, (num t).value = t.double.value) (passes : Nat)
    (stack : List (Src × Src)) (hpasses : (stack.map fun p => p.2.count).sum ≤ passes)
    (hu : ∀ p ∈ stack, p.1.Unique ∧ p.2.Unique) :
    equalsLoop passes (stack.map (hostPair num)) =
      stack.all fun p => jsonEq (engine p.1) (engine p.2) := by
  induction passes generalizing stack with
  | zero =>
    cases stack with
    | nil => rfl
    | cons p rest =>
      have := Json.count_pos p.2
      rw [List.map_cons, List.sum_cons] at hpasses
      omega
  | succ passes ih =>
    cases stack with
    | nil => rfl
    | cons p rest =>
      obtain ⟨d, l⟩ := p
      rw [List.forall_mem_cons] at hu
      obtain ⟨⟨hud, hul⟩, hurest⟩ := hu
      rw [List.map_cons, List.sum_cons] at hpasses
      change l.count + _ ≤ _ at hpasses
      rw [List.map_cons, List.all_cons]
      have hpos := Json.count_pos l
      have hscalar : l.depth = 0 → ((if scalarEquals (some (docValue d)) (hostValue code num l)
          then equalsLoop passes (rest.map (hostPair num)) else false) =
          (jsonEq (engine d) (engine l) && rest.all fun p => jsonEq (engine p.1) (engine p.2))) := by
        intro hl
        rw [scalarEquals_eq hnum d hl, ih rest (by omega) hurest]
        cases jsonEq (engine d) (engine l) <;> rfl
      cases l with
      | array ls =>
        simp only [hostPair, hostValue_array, equalsLoop]
        cases d with
        | array ds =>
          rw [docValue, hostValue_array]
          simp only [List.length_map]
          by_cases hlen : ds.length = ls.length
          · rw [if_neg (by simpa using hlen)]
            have hstack := ih ((ds.zip ls).reverse ++ rest) ?_ ?_
            · rw [List.map_append, List.map_reverse, ← zip_elements hlen, List.length_map] at hstack
              rw [hstack, List.all_append, List.all_reverse, jsonEq_zip hlen]
            · have hcounts : ((ds.zip ls).map fun p => p.2.count) = ls.map fun j => j.count :=
                counts_eq (List.map_snd_zip hlen.ge)
              rw [Json.count, Json.countItems_eq_sum] at hpasses
              rw [List.map_append, List.sum_append, List.map_reverse, List.sum_reverse, hcounts]
              omega
            · rw [Json.unique_array] at hud hul
              intro p hp
              rcases List.mem_append.mp hp with hp | hp
              · obtain ⟨hpd, hpl⟩ := List.of_mem_zip (List.mem_reverse.mp hp)
                exact ⟨hud _ hpd, hul _ hpl⟩
              · exact hurest p hp
          · have hne : jsonEq (engine (.array ds)) (engine (.array ls)) = false := by
              rw [Bool.eq_false_iff, ne_eq, jsonEq_array]
              exact fun h => hlen h.length_eq
            rw [if_pos (by simpa using hlen), hne, Bool.false_and]
        | object ds =>
          rw [docValue, hostValue_object, engine_object, engine_array]
          rfl
        | _ => rfl
      | object ls =>
        simp only [hostPair, hostValue_object, equalsLoop]
        cases d with
        | object ds =>
          rw [docValue, hostValue_object]
          rw [Json.unique_object] at hud hul
          have hsizes : holdsExactly (hostMembers code num ls).length 0
              (hostMembers code NumText.double ds) = decide (ds.length = ls.length) := by
            rw [holdsExactly_eq _ (Nat.zero_le _)]
            simp [hostMembers]
          have hspec := jsonEq_object_right hud.1 hul.1
          rw [← partners_iff ds ls fun d l => jsonEq (engine d) (engine l)] at hspec
          simp only [pairMembers_eq, hsizes]
          cases hps : partners ds ls with
          | none =>
            have hne : jsonEq (engine (.object ds)) (engine (.object ls)) = false := by
              rw [Bool.eq_false_iff, ne_eq, hspec, hps]
              simp
            rw [hne]
            rfl
          | some ps =>
            obtain ⟨hmap, hmem⟩ := partners_mem hps
            have hstack := ih (ps.reverse ++ rest) ?_ ?_
            · have hobject : jsonEq (engine (.object ds)) (engine (.object ls)) =
                  (decide (ds.length = ls.length) && ps.all fun p => jsonEq (engine p.1) (engine p.2)) := by
                rw [Bool.eq_iff_iff, hspec, hps]
                simp
              rw [List.map_append, List.map_reverse] at hstack
              simp only [Option.map_some, hstack]
              rw [hobject, List.all_append, List.all_reverse]
              cases decide (ds.length = ls.length) <;> rfl
            · rw [Json.count, Json.countMembers_eq_sum] at hpasses
              rw [List.map_append, List.sum_append, List.map_reverse, List.sum_reverse, counts_eq hmap,
                List.map_map]
              change (ls.map fun m => m.2.count).sum + _ ≤ _
              omega
            · intro p hp
              rcases List.mem_append.mp hp with hp | hp
              · obtain ⟨⟨d, hd, hdeq⟩, l, hl, hleq⟩ := hmem p (List.mem_reverse.mp hp)
                rw [← hdeq, ← hleq]
                exact ⟨hud.2 d hd, hul.2 l hl⟩
              · exact hurest p hp
        | array ds =>
          rw [docValue, hostValue_array, engine_object, engine_array]
          rfl
        | _ => rfl
      | _ => exact hscalar rfl

theorem jsonEquals_eq (hnum : ∀ t, (num t).value = t.double.value) {d l : Src} (hd : d.Unique)
    (hl : l.Unique) :
    jsonEquals (some (docValue d)) (hostValue code num l) = jsonEq (engine d) (engine l) := by
  have h := equalsLoop_eq hnum l.count [(d, l)] (by simp) (by simp [hd, hl])
  rw [jsonEquals, count_hostValue]
  simpa [hostPair] using h

end Equals

/-! ### Paths -/

/-- A view stands for a value of the document, or for none. -/
structure Sees (w : JsonView) (v : Option Src) : Prop where
  value : w = v.map docValue
  plain : ∀ d ∈ v, Plain d

/-- An element of an array of the document. -/
structure Holds (el : JsonView) (d : Src) : Prop where
  value : el = some (docValue d)
  plain : Plain d

/-- A document that stands for the roots `sd`. -/
def Reads (doc : JsValue) (sd : SrcDoc) : Prop :=
  ∀ r, r ≠ .element → Sees (docMember doc r) (sd r)

/-- A decimal of 16 digits or more is beyond every array. -/
theorem decimal_ge {s : Units} (h : isDecimal s = true) (hlen : 15 < s.length) : 10 ^ 15 ≤ decimal s := by
  obtain ⟨-, hdigits, hzero⟩ := (isDecimal_iff s).mp h
  have hfold : ∀ (rest : Units) (n : Nat), n * 10 ^ rest.length ≤
      rest.foldl (fun n u => 10 * n + (u - 48)) n := by
    intro rest
    induction rest with
    | nil => intro n; simp
    | cons u rest ih =>
      intro n
      rw [List.foldl_cons]
      refine le_trans ?_ (ih _)
      rw [List.length_cons, Nat.pow_succ', ← Nat.mul_assoc]
      exact Nat.mul_le_mul_right _ (by omega)
  cases s with
  | nil => simp at hlen
  | cons u rest =>
    rw [List.all_cons, Bool.and_eq_true] at hdigits
    have hu := hdigits.1
    simp only [isDigit, Bool.and_eq_true, decide_eq_true_iff] at hu
    have hfirst : u ≠ 48 := by
      intro h48
      exact hzero ⟨by rw [h48]; rfl, by omega⟩
    have hpow : 10 ^ 15 ≤ 10 ^ rest.length := Nat.pow_le_pow_right (by decide) (Nat.le_of_lt_succ hlen)
    calc 10 ^ 15 ≤ 10 ^ rest.length := hpow
      _ ≤ (10 * 0 + (u - 48)) * 10 ^ rest.length := Nat.le_mul_of_pos_left _ (by omega)
      _ ≤ decimal (u :: rest) := hfold rest _

/-- A segment picks the same element of an array. -/
theorem index_eq {α β : Type} (f : α → β) (key : String) {items : List α}
    (h : items.length < 10 ^ 15) :
    ((canonicalIndex (code.text key)).bind fun i => (items.map f)[i]?) =
      ((Filter.canonicalIndex key).bind fun i => items[i]?).map f := by
  apply bind_getElem?_congr
  intro i hi
  rw [canonicalIndex_text code, canonicalIndex]
  by_cases hdec : isDecimal (code.text key) = true
  · by_cases hlen : (code.text key).length > 15
    · have hge := decimal_ge hdec hlen
      simp only [hlen, true_or, if_true, hdec, true_and, Option.ite_none_right_eq_some,
        Option.some.injEq]
      constructor
      · intro h
        cases h
      · intro h
        omega
    · simp only [hlen, hdec, Bool.not_true, Bool.false_eq_true, or_self, if_false, true_and,
        Option.ite_none_right_eq_some, Option.some.injEq]
      omega
  · simp [hdec]

theorem step_index {items : List Src} (hlen : items.length < 10 ^ 15) (key : String)
    (rest : List Sdk.Segment) :
    step (⟨code.text key, canonicalIndex (code.text key)⟩ :: rest)
        (some (.array (items.map docValue))) =
      match (Filter.canonicalIndex key).bind fun i => items[i]? with
      | none => none
      | some item => step rest (some (docValue item)) := by
  have hindex := index_eq docValue key hlen
  rw [step]
  cases hi : canonicalIndex (code.text key) with
  | none =>
    rw [hi] at hindex
    rw [Option.map_eq_none_iff.mp hindex.symm]
  | some i =>
    rw [hi, Option.bind_some] at hindex
    simp only
    split_ifs with hge
    · rw [List.getElem?_eq_none hge] at hindex
      rw [Option.map_eq_none_iff.mp hindex.symm]
    · have hlt : i < (items.map docValue).length := by omega
      rw [List.getElem?_eq_getElem hlt] at hindex
      obtain ⟨item, hitem, heq⟩ := Option.map_eq_some_iff.mp hindex.symm
      rw [hitem, arrayElement_eq hlt, ← heq]

/-- **A compiled path stops where the engine's does.** -/
theorem step_sees {segs : List Filter.Segment}
    (hsegs : ∀ s ∈ segs, s.index = Filter.canonicalIndex s.key) {d : Src} (hd : Plain d) :
    ∃ v, Sees (step (segs.map fun s => ⟨code.text s.key, canonicalIndex (code.text s.key)⟩)
        (some (docValue d))) v ∧ v.map engine = Segment.walk segs (engine d) := by
  have hnone : ∃ v, Sees none v ∧ v.map engine = none := ⟨none, ⟨rfl, by simp⟩, rfl⟩
  induction segs generalizing d with
  | nil => exact ⟨some d, ⟨rfl, fun _ h => by cases h; exact hd⟩, rfl⟩
  | cons seg rest ih =>
    rw [List.forall_mem_cons] at hsegs
    rw [List.map_cons, Segment.walk]
    cases d with
    | object map =>
      rw [docValue, hostValue_object, engine_object]
      simp only [step, Segment.step, get?_engineMembers, objectMember, hostMembers,
        Json.get?_map code.text_injective]
      cases hget : Json.get? map seg.key with
      | none =>
        have hstop : ∀ segs : List Sdk.Segment, step segs none = none := by
          intro segs
          cases segs <;> rfl
        simpa [hstop] using hnone
      | some member => exact ih hsegs.2 (hd.member _ (Json.mem_of_get? hget))
    | array items =>
      have hlen : items.length < 10 ^ 15 := (Json.short_array.mp hd.short).1
      have hitem : ((Filter.canonicalIndex seg.key).bind fun i => (items.map engine)[i]?) =
          ((Filter.canonicalIndex seg.key).bind fun i => items[i]?).map engine :=
        bind_getElem?_congr engine fun _ _ => Iff.rfl
      rw [docValue, hostValue_array, engine_array, step_index hlen]
      simp only [Segment.step, hsegs.1, hitem]
      cases hi : (Filter.canonicalIndex seg.key).bind fun i => items[i]? with
      | none => exact hnone
      | some item =>
        obtain ⟨i, -, hget⟩ := Option.bind_eq_some_iff.mp hi
        exact ih hsegs.2 (hd.item item (List.mem_of_getElem? hget))
    | _ => exact hnone

theorem resolve_sees {p : Filter.Path}
    (hsegs : ∀ s ∈ p.segments, s.index = Filter.canonicalIndex s.key) (doc : JsValue) (el : JsonView)
    {v : Option Src} (hv : Sees (if p.root = .element then el else docMember doc p.root) v) :
    ∃ w, Sees (resolve (hostPath code host.paths p) doc el) w ∧
      w.map engine = (v.map engine).bind (Segment.walk p.segments) := by
  have hresolve : resolve (hostPath code host.paths p) doc el =
      step (p.segments.map fun s : Filter.Segment => ⟨code.text s.key, canonicalIndex (code.text s.key)⟩)
        (if p.root = .element then el else docMember doc p.root) := rfl
  rw [hresolve, hv.value]
  cases v with
  | none =>
    refine ⟨none, ⟨?_, by simp⟩, rfl⟩
    cases p.segments with
    | nil => rfl
    | cons seg rest => rfl
  | some d => exact step_sees hsegs (hv.plain d rfl)


/-! ### Operators -/

/-- What `checkJson` has established of a value when it is parsed. -/
structure Checked (f : Src) : Prop where
  unique : f.Unique
  numbers : numbersOk (engine f) = true

theorem Checked.item {items : List Src} (h : Checked (.array items)) : ∀ i ∈ items, Checked i := by
  have hnumbers := h.numbers
  rw [engine_array, numbersOk_array, List.forall_mem_map] at hnumbers
  exact fun i hi => ⟨Json.unique_array.mp h.unique i hi, hnumbers i hi⟩

theorem Checked.member {map : List (String × Src)} (h : Checked (.object map)) :
    ∀ m ∈ map, Checked m.2 := by
  have hnumbers := h.numbers
  rw [engine_object, numbersOk_object, engineMembers, List.forall_mem_map] at hnumbers
  exact fun m hm => ⟨(Json.unique_object.mp h.unique).2 m hm, hnumbers m hm⟩

section Operators
variable {num : NumText → F64} (path name : Units)

theorem checkLiteralDepth_ok {v : Src} (hv : Checked v) :
    checkLiteralDepth path name (hostValue code num v) = .ok () ↔ literalOk (engine v) = true := by
  have hdepth : (hostValue code num v).depth = (engine v).depth := by
    rw [hostValue, engine, Json.depth_map, Json.depth_map]
  rw [literalOk, hv.numbers, Bool.true_and, decide_eq_true_iff, ← hdepth, ← Json.walkDepth_ok,
    checkLiteralDepth]
  split_ifs with h <;> simp [h]

variable {operand : Src}

theorem parseSet_ok (hg : Checked operand) (set : List JsValue) :
    parseSet path name (hostValue code num operand) = .ok set ↔ ∃ items, operand = .array items ∧
      items.length ≤ maxSetItems ∧ items.all (fun i => literalOk (engine i)) = true ∧
      set = items.map (hostValue code num) := by
  cases operand with
  | array items =>
    rw [hostValue_array, parseSet, List.length_map]
    split_ifs with h
    · simp
      omega
    · have hforM : (items.map (hostValue code num)).forM (checkLiteralDepth path name) = .ok () ↔
          items.all (fun i => literalOk (engine i)) = true := by
        rw [forM_ok, List.forall_mem_map, List.all_eq_true]
        exact forall₂_congr fun i hi => checkLiteralDepth_ok path name (hg.item i hi)
      rw [bind_pure_ok, hforM]
      simp only [Json.array.injEq, exists_eq_left']
      constructor
      · exact fun ⟨hall, hset⟩ => ⟨by omega, hall, hset.symm⟩
      · exact fun ⟨_, hall, hset⟩ => ⟨hall, hset.symm⟩
  | object map =>
    rw [hostValue_object]
    simp [parseSet]
  | _ => simp [hostValue, Json.map, parseSet]

theorem parseSet_isOk (hg : Checked operand) :
    (∃ set, parseSet path name (hostValue code num operand) = .ok set) ↔
      setOk (engine operand) = true := by
  simp only [parseSet_ok path name hg]
  cases operand with
  | array items => simp [engine_array, setOk]
  | object map => simp [engine_object, setOk]
  | _ => simp [engine, Json.map, setOk]

theorem parseBound_isOk (op : OpName) (hg : Checked operand) :
    (∃ fn, parseBound path name op (hostValue code num operand) = .ok fn) ↔
      boundOk (engine operand) = true := by
  cases operand with
  | number t => exact ⟨fun _ => hg.numbers, fun _ => ⟨_, rfl⟩⟩
  | string s => exact ⟨fun _ => rfl, fun _ => ⟨_, rfl⟩⟩
  | object map =>
    rw [hostValue_object, engine_object]
    simp [parseBound, boundOk]
  | array items =>
    rw [hostValue_array, engine_array]
    simp [parseBound, boundOk]
  | _ => simp [hostValue, engine, Json.map, parseBound, boundOk]

variable {path name}

/-- An ordering operator answers as the language orders. -/
theorem parseBound_reads (hnum : ∀ t, (num t).value = t.double.value) {op : OpName} {fn : OpFn JsValue JsonView}
    (h : parseBound path name op (hostValue code num operand) = .ok fn) (v : Option Src) (doc : JsValue) :
    fn (v.map docValue) doc = (ordering (v.map engine) (engine operand)).any (accept op) := by
  cases operand with
  | number t =>
    cases h
    rcases v with _ | d
    · rfl
    cases d with
    | number t' =>
      show accept op (compare t'.double.value (num t).value) =
        (some (compare t'.serde.asF64 t.serde.asF64)).any (accept op)
      rw [hnum, NumText.asF64_serde, NumText.asF64_serde]
      rfl
    | array items =>
      rw [Option.map_some, docValue, hostValue_array, Option.map_some, engine_array]
      rfl
    | object map =>
      rw [Option.map_some, docValue, hostValue_object, Option.map_some, engine_object]
      rfl
    | _ => rfl
  | string s =>
    cases h
    rcases v with _ | d
    · rfl
    cases d with
    | string s' =>
      show accept op (compareCodePoints (code.text s') (code.text s)) =
        (some (compare (utf8 s') (utf8 s))).any (accept op)
      rw [compareCodePoints_text]
      rfl
    | array items =>
      rw [Option.map_some, docValue, hostValue_array, Option.map_some, engine_array]
      rfl
    | object map =>
      rw [Option.map_some, docValue, hostValue_object, Option.map_some, engine_object]
      rfl
    | _ => rfl
  | object map =>
    rw [hostValue_object] at h
    cases h
  | array items =>
    rw [hostValue_array] at h
    cases h
  | _ => cases h

theorem equal_reads (hnum : ∀ t, (num t).value = t.double.value) (hu : operand.Unique) {w : JsonView}
    {v : Option Src} (hw : Sees w v) :
    (w.isSome && jsonEquals w (hostValue code num operand)) =
      (v.map engine).any (jsonEq · (engine operand)) := by
  rw [hw.value]
  cases v with
  | none => rfl
  | some d => exact jsonEquals_eq hnum (hw.plain d rfl).unique hu

theorem set_reads (hnum : ∀ t, (num t).value = t.double.value) {items : List Src}
    (hu : ∀ i ∈ items, i.Unique) {w : JsonView} {v : Option Src} (hw : Sees w v) :
    (w.isSome && (items.map (hostValue code num)).any (jsonEquals w)) =
      (v.map engine).any fun v => (items.map engine).any (jsonEq v) := by
  rw [hw.value]
  cases v with
  | none => rfl
  | some d =>
    rw [Option.map_some, Option.map_some, Option.any_some, List.any_map, List.any_map]
    exact Lib.any_congr_mem fun i hi => jsonEquals_eq hnum (hw.plain d rfl).unique (hu i hi)

theorem parseLeaf_isOk (path : Units) {name : String} (hg : Checked operand) (hany : Filter.opName name ≠ .any) :
    (∃ op, parseLeaf path (code.text name) (hostValue code num operand) = .ok op) ↔
      leafOk name (engine operand) = true := by
  have hset : ∀ f : List JsValue → OpFn JsValue JsonView,
      (∃ op, (do
        let set ← parseSet path (code.text name) (hostValue code num operand)
        pure (f set)) = .ok op) ↔ setOk (engine operand) = true := by
    intro f
    rw [← parseSet_isOk path (code.text name) hg]
    cases parseSet path (code.text name) (hostValue code num operand) with
    | error e => simp [bind, Except.bind]
    | ok set => simp [bind, Except.bind, pure, Except.pure]
  have hliteral : checkLiteralDepth path (code.text name) (hostValue code num operand) = .ok () ↔
      literalOk (engine operand) = true := checkLiteralDepth_ok path (code.text name) hg
  unfold parseLeaf
  rw [opName_text]
  cases hn : Filter.opName name with
  | any => exact absurd hn hany
  | eq => simp only [bind_pure_ok, hliteral, exists_and_left, exists_eq', and_true, leafOk, hn]
  | ne => simp only [bind_pure_ok, hliteral, exists_and_left, exists_eq', and_true, leafOk, hn]
  | inSet =>
    rw [leafOk_set (.inl hn)]
    exact hset _
  | nin =>
    rw [leafOk_set (.inr hn)]
    exact hset _
  | existsIs =>
    cases operand with
    | array items => simp [hostValue_array, engine_array, leafOk, hn]
    | object map => simp [hostValue_object, engine_object, leafOk, hn]
    | _ => simp [hostValue, engine, Json.map, leafOk, hn]
  | hasPrefix =>
    cases operand with
    | array items => simp [hostValue_array, engine_array, leafOk, hn]
    | object map => simp [hostValue_object, engine_object, leafOk, hn]
    | _ => simp [hostValue, engine, Json.map, leafOk, hn]
  | combinator => simp [leafOk, hn]
  | unknown => simp [leafOk, hn]
  | _ =>
    rw [leafOk_bound (by rw [hn]; rfl)]
    exact parseBound_isOk path (code.text name) _ hg

theorem parseLeaf_reads (hnum : ∀ t, (num t).value = t.double.value) {path : Units} {name : String}
    {op : OpFn JsValue JsonView} (hg : Checked operand)
    (h : parseLeaf path (code.text name) (hostValue code num operand) = .ok op) {w : JsonView} {v : Option Src}
    (doc : JsValue) (hw : Sees w v) :
    op w doc = readLeaf name (engine operand) (v.map engine) := by
  unfold parseLeaf at h
  rw [opName_text] at h
  unfold readLeaf
  cases hn : Filter.opName name <;> rw [hn] at h <;> simp only at h ⊢
  case eq =>
    obtain ⟨-, rfl⟩ := bind_pure_ok.mp h
    exact equal_reads hnum hg.unique hw
  case ne =>
    obtain ⟨-, rfl⟩ := bind_pure_ok.mp h
    rw [← equal_reads hnum hg.unique hw, Bool.not_and]
  case inSet =>
    obtain ⟨set, hset, rfl⟩ := bind_map_ok h
    obtain ⟨items, rfl, -, -, rfl⟩ := (parseSet_ok path (code.text name) hg set).mp hset
    rw [engine_array]
    exact set_reads hnum (Json.unique_array.mp hg.unique) hw
  case nin =>
    obtain ⟨set, hset, rfl⟩ := bind_map_ok h
    obtain ⟨items, rfl, -, -, rfl⟩ := (parseSet_ok path (code.text name) hg set).mp hset
    rw [engine_array]
    simp only
    rw [← set_reads hnum (Json.unique_array.mp hg.unique) hw, Bool.not_and]
  case existsIs =>
    cases operand with
    | bool b =>
      cases h
      rw [hw.value]
      cases v <;> rfl
    | array items =>
      rw [hostValue_array] at h
      cases h
    | object map =>
      rw [hostValue_object] at h
      cases h
    | _ => cases h
  case hasPrefix =>
    cases operand with
    | string s =>
      cases h
      rw [hw.value]
      rcases v with _ | d
      · rfl
      cases d with
      | string s' => exact hasCodePointPrefix_text s' s
      | array items =>
        rw [Option.map_some, docValue, hostValue_array, Option.map_some, engine_array]
        rfl
      | object map =>
        rw [Option.map_some, docValue, hostValue_object, Option.map_some, engine_object]
        rfl
      | _ => rfl
    | array items =>
      rw [hostValue_array] at h
      cases h
    | object map =>
      rw [hostValue_object] at h
      cases h
    | _ => cases h
  case any => cases h
  case combinator => cases h
  case unknown => cases h
  all_goals
    rw [hw.value, parseBound_reads hnum h]
    cases ordering (v.map engine) (engine operand) with
    | none => rfl
    | some o => cases o <;> rfl

end Operators

/-! ### The host -/

theorem items_docValue (d : Src) : items (some (docValue d)) = match d with
    | .array x => some (x.map fun i => some (docValue i))
    | _ => none := by
  cases d with
  | array x =>
    rw [docValue, hostValue_array]
    simp only [items, elements_eq, List.map_map]
    rfl
  | object map =>
    rw [docValue, hostValue_object]
    rfl
  | _ => rfl

/-- **The Node operators, paths and elements answer as the language does.** -/
theorem host_faithful {num : NumText → F64} (hnum : ∀ t, (num t).value = t.double.value) :
    Faithful host num Checked Holds Sees Reads where
  good_array := fun h => h.item
  good_object := fun h => ⟨(Json.unique_object.mp h.unique).1, h.member⟩
  members_perm := fun obj _ => List.Perm.refl obj
  leaf_ok := fun path name operand hg hany => parseLeaf_isOk path hg hany
  leaf_reads := by
    intro path name operand op hg h w v d hw
    exact parseLeaf_reads hnum hg h d hw
  items_array := by
    intro w x hw
    refine ⟨x.map fun i => some (docValue i), ?_, ?_⟩
    · rw [hw.value]
      exact items_docValue (.array x)
    · rw [List.forall₂_map_left_iff]
      exact List.forall₂_same.mpr fun i hi => ⟨rfl, (hw.plain _ rfl).item i hi⟩
  items_other := by
    intro w v hw hno
    rw [hw.value]
    cases v with
    | none => rfl
    | some d =>
      refine (items_docValue d).trans ?_
      cases d with
      | array x => exact absurd rfl (hno x)
      | _ => rfl
  sees_view := fun h => ⟨h.value, fun d hd => by cases hd; exact h.plain⟩
  resolve_outside := by
    intro raw p hp doc sd el hdoc
    obtain ⟨hroot, hsegs⟩ := Path.parse_ok hp
    have hne : p.root ≠ .element := fun h => by simpa using hroot.mp h
    rw [Path.resolve, root_engineDoc sd none hne]
    refine resolve_sees hsegs doc el ?_
    rw [if_neg hne]
    exact hdoc p.root hne
  resolve_inside := by
    intro raw p hp doc sd el item _ hitem
    obtain ⟨hroot, hsegs⟩ := Path.parse_ok hp
    have helement : p.root = .element := hroot.mpr rfl
    have hsees : Sees (if p.root = .element then el else docMember doc p.root) (some item) := by
      rw [if_pos helement]
      exact ⟨hitem.value, fun d hd => by cases hd; exact hitem.plain⟩
    rw [Path.resolve, helement]
    exact resolve_sees hsegs doc el hsees

end Iii.Node
