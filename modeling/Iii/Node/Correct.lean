import Iii.Filter.Measure
import Iii.Node.Agree

/-! `compile(src, trusted)` and the filter it returns, against the engine's.

`checkJson` looks at the whole value: its nesting, its numbers, its strings and how
many values it has (`checkJson_ok`). Of a filter the engine accepts only the last can
fail, and not for a normal form. -/
namespace Iii.Node
open Filter Sdk

/-! ### `checkJson` -/

/-- The strings and numbers `checkJson` lets through. -/
def Sound : JsValue → Prop :=
  Json.All (fun s => wellFormed s = true) fun n => n.value.natAbs ≤ maxSafeInteger * 2 ^ 1074

/-- A value on the stack with its level. -/
def Pending.at_ (e : Pending) : JsValue × Nat := (e.value, e.depth)

theorem checkString_isOk {s place what : Units} :
    checkString s place what = .ok () ↔ wellFormed s = true := by
  unfold checkString
  split_ifs with h <;> simp [h]

theorem pushItems_at (place : Units) (depth : Nat) (items : List JsValue) :
    (pushItems place depth items).map Pending.at_ = (items.map (·, depth + 1)).reverse := by
  rw [pushItems, List.map_reverse, List.map_map]
  have hfst : items.map (·, depth + 1) = (items.zipIdx.map Prod.fst).map (·, depth + 1) := by
    rw [List.zipIdx_map_fst]
  rw [hfst, List.map_map]
  rfl

theorem pushMembers_at (place : Units) (depth : Nat) (members : List (Units × JsValue)) :
    (pushMembers place depth members).map Pending.at_ =
      (members.map fun m => (m.2, depth + 1)).reverse := by
  rw [pushMembers, List.map_reverse, List.map_map]
  rfl

/-- What `checkJson` asks of all that is on its stack. -/
def Passes (stack : List Pending) : Prop :=
  ∀ p ∈ stack.map Pending.at_, Json.Fits maxJsonDepth p ∧ Sound p.1

def values (stack : List Pending) : Nat := ((stack.map Pending.at_).map fun p => p.1.count).sum

theorem values_append (a b : List Pending) : values (a ++ b) = values a + values b := by
  simp [values]

theorem values_cons (e : Pending) (rest : List Pending) :
    values (e :: rest) = e.value.count + values rest := rfl

theorem passes_append (a b : List Pending) : Passes (a ++ b) ↔ Passes a ∧ Passes b := by
  unfold Passes
  rw [List.map_append, List.forall_mem_append]

theorem values_items (place : Units) (depth : Nat) (items : List JsValue) :
    values (pushItems place depth items) = Json.countItems items := by
  rw [values, pushItems_at, List.map_reverse, List.sum_reverse, List.map_map, Json.countItems_eq_sum]
  rfl

theorem passes_items (place : Units) (depth : Nat) (items : List JsValue) :
    Passes (pushItems place depth items) ↔
      ∀ j ∈ items, Json.Fits maxJsonDepth (j, depth + 1) ∧ Sound j := by
  unfold Passes
  rw [pushItems_at]
  simp only [List.mem_reverse, List.forall_mem_map]

theorem values_members (place : Units) (depth : Nat) (members : List (Units × JsValue)) :
    values (pushMembers place depth members) = Json.countMembers members := by
  rw [values, pushMembers_at, List.map_reverse, List.sum_reverse, List.map_map,
    Json.countMembers_eq_sum]
  rfl

theorem passes_members (place : Units) (depth : Nat) (members : List (Units × JsValue)) :
    Passes (pushMembers place depth members) ↔
      ∀ m ∈ members, Json.Fits maxJsonDepth (m.2, depth + 1) ∧ Sound m.2 := by
  unfold Passes
  rw [pushMembers_at]
  simp only [List.mem_reverse, List.forall_mem_map]

section Check
variable (numberText : F64 → Units)

theorem checkLoop_ok (passes : Nat) (stack : List Pending) (visited : Nat)
    (hpasses : values stack ≤ passes) (hvisited : visited ≤ maxEncodedBytes) :
    checkLoop numberText passes stack visited = .ok () ↔
      visited + values stack ≤ maxEncodedBytes ∧ Passes stack := by
  induction passes generalizing stack visited with
  | zero =>
    cases stack with
    | nil => simp [checkLoop, values, Passes, hvisited]
    | cons e rest =>
      have := Json.count_pos e.value
      rw [values_cons] at hpasses
      omega
  | succ passes ih =>
    cases stack with
    | nil => simp [checkLoop, values, Passes, hvisited]
    | cons e rest =>
      obtain ⟨value, place, depth⟩ := e
      rw [values_cons] at hpasses
      change value.count + _ ≤ _ at hpasses
      have hpos := Json.count_pos value
      have hcons : Passes (⟨value, place, depth⟩ :: rest) ↔
          (Json.Fits maxJsonDepth (value, depth) ∧ Sound value) ∧ Passes rest := by
        unfold Passes
        rw [List.map_cons, List.forall_mem_cons]
        rfl
      rw [values_cons, hcons]
      change checkLoop numberText (passes + 1) _ visited = .ok () ↔
        visited + (value.count + values rest) ≤ maxEncodedBytes ∧ _
      rw [checkLoop.eq_def]
      simp only
      by_cases hfull : visited + 1 > maxEncodedBytes
      · rw [if_pos hfull]
        simp only [reduceCtorEq, false_iff]
        omega
      · rw [if_neg hfull]
        have hrest := ih rest (visited + 1) (by omega) (by omega)
        -- a leaf takes one visit and is checked by itself; a container is replaced by its parts
        have hleaf : value.depth = 0 → value.count = 1 → ∀ ok : Prop, (Sound value ↔ ok) →
            (ok ∧ checkLoop numberText passes rest (visited + 1) = .ok () ↔
              visited + (value.count + values rest) ≤ maxEncodedBytes ∧
                (Json.Fits maxJsonDepth (value, depth) ∧ Sound value) ∧ Passes rest) := by
          intro hdepth hcount ok hok
          have hfits : Json.Fits maxJsonDepth (value, depth) := .inl hdepth
          rw [hrest, hcount, ← hok, ← Nat.add_assoc]
          constructor
          · exact fun ⟨hsound, hle, hpass⟩ => ⟨hle, ⟨hfits, hsound⟩, hpass⟩
          · exact fun ⟨hle, hvalue, hpass⟩ => ⟨hvalue.2, hle, hpass⟩
        cases value with
        | null => exact (iff_of_eq (true_and _)).symm.trans (hleaf rfl rfl True Iff.rfl)
        | bool b => exact (iff_of_eq (true_and _)).symm.trans (hleaf rfl rfl True Iff.rfl)
        | string s =>
          simp only
          rw [bind_ok, checkString_isOk]
          exact hleaf rfl rfl _ Iff.rfl
        | number n =>
          rw [← hleaf rfl rfl _ Iff.rfl]
          show _ ↔ n.value.natAbs ≤ _ ∧ _
          simp only
          by_cases hbig : n.value.natAbs > maxSafeInteger * 2 ^ 1074
          · rw [if_pos hbig]
            simp only [reduceCtorEq, false_iff]
            exact fun h => absurd h.1 (Nat.not_le.mpr hbig)
          · rw [if_neg hbig]
            exact (and_iff_right (Nat.le_of_not_lt hbig)).symm
        | array items =>
          rw [Json.count] at hpasses ⊢
          have hvalues := values_items place depth items
          simp only
          rw [Json.fits_array]
          by_cases hdeep : depth > maxJsonDepth
          · rw [if_pos hdeep]
            simp only [reduceCtorEq, false_iff]
            omega
          · rw [if_neg hdeep, ih _ _ (by rw [values_append]; omega) (by omega), values_append,
              passes_append, passes_items, hvalues]
            have hsound : Sound (.array items) ↔ ∀ j ∈ items, Sound j := Json.all_array
            rw [hsound]
            simp only [forall_and]
            have hbound : visited + 1 + (Json.countItems items + values rest) =
              visited + (1 + Json.countItems items + values rest) := by omega
            have hlevel : depth ≤ maxJsonDepth := Nat.le_of_not_lt hdeep
            simp only [hbound, hlevel, true_and]
        | object members =>
          rw [Json.count] at hpasses ⊢
          have hvalues := values_members place depth members
          simp only
          rw [Json.fits_object]
          by_cases hdeep : depth > maxJsonDepth
          · rw [if_pos hdeep]
            simp only [reduceCtorEq, false_iff]
            omega
          · rw [if_neg hdeep, bind_ok, forM_ok, ih _ _ (by rw [values_append]; omega) (by omega),
              values_append, passes_append, passes_members, hvalues]
            simp only [checkString_isOk]
            have hsound : Sound (.object members) ↔
                ∀ m ∈ members, wellFormed m.1 = true ∧ Sound m.2 := Json.all_object
            rw [hsound]
            simp only [forall_and]
            have hbound : visited + 1 + (Json.countMembers members + values rest) =
              visited + (1 + Json.countMembers members + values rest) := by omega
            have hlevel : depth ≤ maxJsonDepth := Nat.le_of_not_lt hdeep
            simp only [hbound, hlevel, true_and]
            constructor
            · exact fun ⟨hkeys, hle, ⟨hfits, hsound⟩, hpass⟩ => ⟨hle, ⟨hfits, hkeys, hsound⟩, hpass⟩
            · exact fun ⟨hle, ⟨hfits, hkeys, hsound⟩, hpass⟩ => ⟨hkeys, hle, ⟨hfits, hsound⟩, hpass⟩

/-- The numbers of a filter are doubles. -/
def Doubles (f : Src) : Prop := Json.All (fun _ => True) NumText.Exact f

/-- Among doubles the range check on the whole value is the language's on each number. -/
theorem sound_iff {f : Src} (h : Doubles f) : Sound (docValue f) ↔ numbersOk (engine f) = true := by
  induction f using Json.ind with
  | null => exact ⟨fun _ => rfl, fun _ => trivial⟩
  | bool b => exact ⟨fun _ => rfl, fun _ => trivial⟩
  | string s => exact ⟨fun _ => rfl, fun _ => wellFormed_text s⟩
  | number t => exact (NumText.inRange_iff h).symm
  | array items ih =>
    have hitems := Json.all_array.mp h
    rw [docValue, hostValue_array, engine_array, numbersOk_array, List.forall_mem_map]
    refine Json.all_array.trans ?_
    rw [List.forall_mem_map]
    exact forall₂_congr fun i hi => ih i hi (hitems i hi)
  | object members ih =>
    have hmembers := Json.all_object.mp h
    rw [docValue, hostValue_object, engine_object, numbersOk_object, engineMembers,
      List.forall_mem_map]
    refine Json.all_object.trans ?_
    rw [hostMembers, List.forall_mem_map]
    refine forall₂_congr fun m hm => ?_
    rw [← ih m hm (hmembers m hm).2]
    exact and_iff_right (wellFormed_text m.1)

theorem checkJson_ok {f : Src} (h : Doubles f) : checkJson numberText (docValue f) = .ok () ↔
    f.count ≤ maxEncodedBytes ∧ f.depth ≤ maxJsonDepth ∧ numbersOk (engine f) = true := by
  have hcount : values [⟨docValue f, [], 1⟩] = f.count := count_hostValue code NumText.double f
  have hdepth : (docValue f).depth = f.depth := Json.depth_map ..
  rw [checkJson, checkLoop_ok numberText _ _ _ (by rw [hcount, count_hostValue]) (Nat.zero_le _),
    Nat.zero_add, hcount, ← sound_iff h]
  refine and_congr_right fun _ => ?_
  simp only [Passes, List.map_singleton, List.mem_singleton, forall_eq, Pending.at_, Json.Fits, hdepth]
  refine and_congr_left fun _ => ?_
  omega

/-! ### Agreement -/

theorem jsonNumber_value (n : F64) : (jsonNumber n).value = n.value := by
  unfold jsonNumber
  split_ifs with h
  · cases hneg : n.neg <;> simp [F64.value, signed, h]
  · rfl

/-- A number of the filter after the JSON copy. -/
def copied (t : NumText) : F64 := jsonNumber t.double

theorem jsonCopy_docValue (f : Src) : jsonCopy (docValue f) = hostValue code copied f := by
  rw [jsonCopy, docValue, hostValue, Json.map_map]
  rfl

theorem compile_ok (f : Src) (g : Compiled) : compile numberText (docValue f) = .ok g ↔
    (∃ map, f = .object map) ∧ checkJson numberText (docValue f) = .ok () ∧
      ∃ clauses roots, compileClauses host (hostValue code copied f) = .ok (clauses, roots) ∧
        g = ⟨andPred clauses, roots, clauses.isEmpty⟩ := by
  rw [← jsonCopy_docValue]
  cases f with
  | object map =>
    rw [docValue, hostValue_object, compile]
    cases checkJson numberText (.object (hostMembers code NumText.double map)) with
    | error e => simp [bind, Except.bind]
    | ok u =>
      cases compileClauses host (jsonCopy (.object (hostMembers code NumText.double map))) with
      | error e => simp [bind, Except.bind]
      | ok r =>
        obtain ⟨clauses, roots⟩ := r
        simp [bind, Except.bind, pure, Except.pure, eq_comm]
  | array items =>
    rw [docValue, hostValue_array]
    simp [compile]
  | _ => simp [hostValue, Json.map, compile]

theorem reads_doc {d : Src} (hd : Plain d) : Reads (docValue d) (rootsOf d) := by
  intro r _
  cases d with
  | object map =>
    rw [docValue, hostValue_object]
    refine ⟨?_, fun v hv => hd.member _ (Json.mem_of_get? hv)⟩
    have hget := Json.get?_map code.text_injective (hostValue code NumText.double) map (rootName r)
    simp only [docMember, objectMember, hostMembers, hget, rootsOf]
    cases Json.get? map (rootName r) <;> rfl
  | array items =>
    rw [docValue, hostValue_array]
    exact ⟨rfl, by simp [rootsOf]⟩
  | _ => exact ⟨rfl, by simp [rootsOf]⟩

/-- What is not an object has no roots, and is read as `{}`. -/
theorem matches_eq {clauses : List (Pred JsValue JsonView)} {roots : Roots} {b : Bool}
    {read : Doc → Bool} {d : Src} (hd : Plain d)
    (h : ∀ doc sd, Reads doc sd → andPred clauses doc none = read (engineDoc sd)) :
    Compiled.matches ⟨andPred clauses, roots, b⟩ (docValue d) = read (Doc.fromValue (engine d)) := by
  have hempty : Reads (.object []) (fun _ => none) := fun _ _ => ⟨rfl, by simp⟩
  rw [← engineDoc_rootsOf]
  cases d with
  | object map =>
    rw [← h _ _ (reads_doc hd), docValue, hostValue_object]
    rfl
  | array items =>
    rw [← h _ _ (reads_doc hd), docValue, hostValue_array]
    rfl
  | _ => exact h _ _ hempty

section Agree
variable (ft : FloatText) {f : Src}

/-- `compile` accepts what the engine accepts and the bound on the values lets through. -/
theorem compile_isOk (hu : f.Unique) (hd : Doubles f) :
    (∃ g, compile numberText (docValue f) = .ok g) ↔
      (∃ e, Iii.Filter.fromNormalized ft (engine f) = .ok e) ∧ f.count ≤ maxEncodedBytes := by
  have hdepth : (engine f).depth = f.depth := Json.depth_map ..
  have hagree : numbersOk (engine f) = true →
      ((∃ r, compileClauses host (hostValue code copied f) = .ok r) ↔
        filterOk maxDepth false (engine f) = true ∧ filterNodes (engine f) ≤ maxNodes) := fun hn =>
    (compileClauses_agrees ft (host_faithful fun t => jsonNumber_value t.double) ⟨hu, hn⟩).1
  simp only [compile_ok, checkJson_ok numberText hd]
  rw [Iii.Filter.fromNormalized_isOk]
  constructor
  · intro h
    obtain ⟨g, -, ⟨hcount, hnest, hnumbers⟩, clauses, roots, hclauses, -⟩ := h
    obtain ⟨hvalid, hnodes⟩ := (hagree hnumbers).mp ⟨_, hclauses⟩
    exact ⟨⟨by omega, hvalid, hnodes⟩, hcount⟩
  · intro h
    obtain ⟨hadm, hcount⟩ := h
    have hnumbers := numbersOk_of_filterOk hadm.valid
    have hnest := hadm.nesting
    obtain ⟨⟨clauses, roots⟩, hclauses⟩ := (hagree hnumbers).mpr ⟨hadm.valid, hadm.nodes⟩
    exact ⟨_, object_of_filterOk hadm.valid, ⟨hcount, by omega, hnumbers⟩, clauses, roots, hclauses, rfl⟩

/-- An accepted filter matches, reads and is empty as the engine's. -/
theorem compile_reads (hu : f.Unique) (hd : Doubles f) {g : Compiled} {e : Iii.Filter}
    (hg : compile numberText (docValue f) = .ok g)
    (he : Iii.Filter.fromNormalized ft (engine f) = .ok e) :
    (∀ d, Plain d → g.matches (docValue d) = e.matchesValue (engine d)) ∧ g.roots = e.roots ∧
      g.matchAll = e.isMatchAll := by
  obtain ⟨-, hcheck, clauses, roots, hclauses, rfl⟩ := (compile_ok numberText f g).mp hg
  obtain ⟨-, -, hnumbers⟩ := (checkJson_ok numberText hd).mp hcheck
  have hfaithful := host_faithful fun t => jsonNumber_value t.double
  have hcompiled := (compileClauses_agrees ft hfaithful ⟨hu, hnumbers⟩).2 clauses roots hclauses
  obtain ⟨hmatches, hroots, hall⟩ := hcompiled.agrees ft hu (Iii.Filter.of_fromNormalized ft he)
  exact ⟨fun d hp => matches_eq hp fun doc sd hdoc => hmatches doc sd none hdoc, hroots, hall⟩

/-- **The Node evaluator agrees with the engine.** Beyond the engine's checks it
bounds the number of values, which never refuses a normal form the engine sends; an
accepted filter matches the same documents. Its loop for deep equality, its string
order and its prefixes are the engine's. -/
theorem compile_agrees (hu : f.Unique) (hd : Doubles f) :
    ((∃ g, compile numberText (docValue f) = .ok g) ↔
      (∃ e, Iii.Filter.fromNormalized ft (engine f) = .ok e) ∧ f.count ≤ maxEncodedBytes) ∧
    (∀ src e, Iii.Filter.parse ft src = .ok e → engine f = e.normalized →
      f.count ≤ maxEncodedBytes ∧ ((∃ g, compile numberText (docValue f) = .ok g) ↔
        ∃ e, Iii.Filter.fromNormalized ft (engine f) = .ok e)) ∧
    (∀ g e, compile numberText (docValue f) = .ok g →
      Iii.Filter.fromNormalized ft (engine f) = .ok e →
      ∀ d, Plain d → g.matches (docValue d) = e.matchesValue (engine d)) ∧
    (∀ d l : Src, d.Unique → l.Unique →
      jsonEquals (some (docValue d)) (docValue l) = jsonEq (engine d) (engine l)) ∧
    (∀ a b : String, compareCodePoints (code.text a) (code.text b) = compare (utf8 a) (utf8 b)) ∧
    ∀ s p : String, hasCodePointPrefix (code.text s) (code.text p) = (utf8 p).isPrefixOf (utf8 s) := by
  have haccepts := compile_isOk numberText ft hu hd
  refine ⟨haccepts, ?_, fun g e hg he => (compile_reads numberText ft hu hd hg he).1, ?_,
    compareCodePoints_text, hasCodePointPrefix_text⟩
  · intro src e hparse hnormal
    have hcount : f.count ≤ maxEncodedBytes := by
      rw [← count_engine, hnormal, (Iii.Filter.of_parse ft hparse).normalized]
      exact (count_normal ft src).trans (Iii.Filter.size_of_parse ft hparse)
    refine ⟨hcount, haccepts.trans (and_iff_left hcount)⟩
  · intro d l hdu hlu
    exact jsonEquals_eq (fun _ => rfl) hdu hlu

theorem compile_agrees_aboveOne : ∃ g e, compile (fun _ => []) (docValue aboveOne) = .ok g ∧
    Iii.Filter.fromNormalized .exact (engine aboveOne) = .ok e ∧
    g.matches (docValue (withN two)) = true ∧ g.matches (docValue (withN one)) = false ∧
    e.matchesValue (engine (withN two)) = true := by
  have hdoubles : Doubles aboveOne := by
    simp only [Doubles, aboveOne, Json.All, Json.AllMembers, true_and, and_true]
    intro _
    decide +kernel
  obtain ⟨haccepts, -, hmatches, -⟩ := compile_agrees (fun _ => []) .exact aboveOne_unique hdoubles
  obtain ⟨e, he⟩ := Except.ok_isOk.mp
    (show (Iii.Filter.fromNormalized .exact (engine aboveOne)).isOk = true by rfl)
  obtain ⟨g, hg⟩ := haccepts.mpr ⟨⟨e, he⟩, by decide⟩
  have hread : ∀ d, e.matchesValue (engine d) =
      readFilter (Doc.fromValue (engine d)) none (normal .exact (engine aboveOne)) :=
    fun d => (Iii.Filter.of_fromNormalized .exact he).matches_normal _
  refine ⟨g, e, hg, he, ?_, ?_, ?_⟩
  · rw [hmatches g e hg he _ (withN_plain two), hread]
    decide +kernel
  · rw [hmatches g e hg he _ (withN_plain one), hread]
    decide +kernel
  · rw [hread]
    decide +kernel

end Agree

end Check

end Iii.Node
