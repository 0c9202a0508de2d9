import Iii.Go.Filter
import Iii.Sdk.Agree

/-! The Go evaluator agrees with the engine.

Both are given one JSON value. `Faithful` asks the Go operators, paths and array
elements to answer as the language does; the numbers of a document may come as
`float64` or as `json.Number` (`dec`), as long as they are the same doubles. -/
namespace Iii.Go
open Filter Sdk

/-! ### Numbers and literals -/

theorem numberOk_serde (t : NumText) : numberOk t = t.serde.inRange := by
  cases t with
  | other text d => rfl
  | integer neg n d nearest =>
    have hbig : ∀ k, 63 ≤ k → 2 ^ k ≤ n → ¬ d.value.natAbs ≤ maxSafeInteger * 2 ^ 1074 := by
      intro k hk hn hle
      have hround : 2 ^ 63 ≤ roundNat n :=
        (Nat.pow_le_pow_right (by decide) hk).trans (roundNat_ge (by omega) hn)
      have hvalue : d.value.natAbs = roundNat n * 2 ^ 1074 := by
        rw [nearest, natAbs_signed]
      rw [hvalue] at hle
      have := Nat.le_of_mul_le_mul_right hle (Nat.two_pow_pos _)
      simp only [maxSafeInteger] at this
      omega
    have hsafe : maxSafeInteger = 9007199254740992 := rfl
    cases neg with
    | false =>
      simp only [numberOk, NumText.serde, Bool.false_eq_true, if_false]
      rw [Bool.eq_iff_iff, Bool.and_eq_true, decide_eq_true_iff, decide_eq_true_iff]
      split
      · show _ ↔ decide (n ≤ maxSafeInteger) = true
        rw [decide_eq_true_iff]
        omega
      · refine iff_of_false (by omega) ?_
        rw [Number.inRange, decide_eq_true_iff]
        exact hbig 64 (by omega) (by omega)
    | true =>
      simp only [numberOk, NumText.serde, if_true]
      rw [Bool.eq_iff_iff, Bool.and_eq_true, decide_eq_true_iff, decide_eq_true_iff]
      split
      · show _ ↔ decide (n - 1 + 1 ≤ maxSafeInteger) = true
        rw [decide_eq_true_iff]
        omega
      · by_cases hzero : n = 0
        · subst hzero
          have hvalue : d.value = 0 := by
            rw [nearest]
            simp [signed, roundNat]
          simp [Number.inRange, hvalue]
        · refine iff_of_false (by omega) ?_
          rw [Number.inRange, decide_eq_true_iff]
          exact hbig 63 (by omega) (by omega)

theorem checkNumber_ok (path name : Units) (t : NumText) :
    checkNumber path name t = .ok () ↔ t.serde.inRange = true := by
  rw [checkNumber, numberOk_serde]
  split_ifs with h <;> simp [h]

/-- A literal of the filter, as Go decodes it. -/
abbrev decoded (v : Src) : GoValue := hostValue code .number v

theorem checkItems_ok (path name : Units) (depth : Nat) (items : List GoValue) :
    checkItems path name depth items = .ok () ↔
      ∀ j ∈ items, checkLiteral path name depth j = .ok () := by
  induction items with
  | nil => simp [checkItems]
  | cons j rest ih => rw [checkItems, bind_ok, ih, List.forall_mem_cons]

theorem checkMembers_eq (path name : Units) (depth : Nat) (map : List (Units × GoValue)) :
    checkMembers path name depth map =
      map.map fun m => (m.1, checkLiteral path name depth m.2) := by
  induction map with
  | nil => rfl
  | cons m rest ih => rw [checkMembers, ih, List.map_cons]

/-- Whichever key is looked at first, the members pass when each of them does. -/
theorem sorted_forM_ok (path name : Units) (depth : Nat) (map : List (Units × GoValue)) :
    ((checkMembers path name depth map).insertionSort keyLe).forM (·.2) = .ok () ↔
      ∀ m ∈ map, checkLiteral path name depth m.2 = .ok () := by
  rw [forM_ok, checkMembers_eq]
  simp only [List.mem_insertionSort, List.forall_mem_map]

theorem walkLiteral_ok (path name : Units) (v : Src) (depth : Nat) (hd : depth ≤ maxLiteralDepth) :
    checkLiteral path name depth (decoded v) = .ok () ↔
      numbersOk (engine v) = true ∧ v.depth ≤ maxLiteralDepth - depth := by
  induction v using Json.ind generalizing depth with
  | null => simp [hostValue, engine, Json.map, checkLiteral, numbersOk, Json.depth]
  | bool b => simp [hostValue, engine, Json.map, checkLiteral, numbersOk, Json.depth]
  | string s => simp [hostValue, engine, Json.map, checkLiteral, numbersOk, Json.depth]
  | number n => simp [hostValue, engine, Json.map, checkLiteral, numbersOk, Json.depth, checkNumber_ok]
  | array items ih =>
    rw [decoded, hostValue_array, engine_array, checkLiteral, numbersOk_array, Json.depth_array_le]
    split_ifs with h
    · simp
      omega
    · have hstep : ∀ j ∈ items, (checkLiteral path name (depth + 1) (decoded j) = .ok () ↔
          numbersOk (engine j) = true ∧ j.depth ≤ maxLiteralDepth - depth - 1) :=
        fun j hj => ih j hj (depth + 1) (by omega)
      have hone : 1 ≤ maxLiteralDepth - depth := by omega
      rw [checkItems_ok, List.forall_mem_map, List.forall_mem_map, forall₂_congr hstep]
      simp only [forall_and, hone, true_and]
  | object map ih =>
    rw [decoded, hostValue_object, engine_object, checkLiteral, numbersOk_object,
      Json.depth_object_le]
    split_ifs with h
    · simp
      omega
    · have hstep : ∀ m ∈ map, (checkLiteral path name (depth + 1) (decoded m.2) = .ok () ↔
          numbersOk (engine m.2) = true ∧ m.2.depth ≤ maxLiteralDepth - depth - 1) :=
        fun m hm => ih m hm (depth + 1) (by omega)
      have hone : 1 ≤ maxLiteralDepth - depth := by omega
      rw [sorted_forM_ok, hostMembers, engineMembers, List.forall_mem_map, List.forall_mem_map,
        forall₂_congr hstep]
      simp only [forall_and, hone, true_and]

theorem checkLiteral_ok (path name : Units) (v : Src) :
    checkLiteral path name 0 (decoded v) = .ok () ↔ literalOk (engine v) = true := by
  rw [walkLiteral_ok path name v 0 (Nat.zero_le _), literalOk, engine, Json.depth_map]
  simp

/-! ### Equality -/

section Documents
variable {dec : NumText → Num}

/-- A value of a document in JSON form. -/
def shown (dec : NumText → Num) (d : Src) : GoValue := (view (hostValue code dec d)).1

theorem view_hostValue (d : Src) : view (hostValue code dec d) = (shown dec d, true) := by
  cases d <;> rfl

theorem viewElement_hostValue (d : Src) : viewElement (hostValue code dec d) = shown dec d := by
  rw [viewElement, view_hostValue]
  rfl

theorem shown_array (items : List Src) :
    shown dec (.array items) = .array (items.map (hostValue code dec)) := by
  rw [shown, hostValue_array]
  rfl

theorem shown_object (map : List (String × Src)) :
    shown dec (.object map) = .object (hostMembers code dec map) := by
  rw [shown, hostValue_object]
  rfl

/-- A literal with its numbers as `float64`. -/
abbrev literalOf (v : Src) : GoValue := literal (decoded v)

theorem literalOf_array (items : List Src) :
    literalOf (.array items) = .array (items.map literalOf) := by
  rw [literalOf, decoded, hostValue_array, literal, Json.map_array, List.map_map]
  rfl

theorem literalOf_object (map : List (String × Src)) :
    literalOf (.object map) = .object (map.map fun m => (code.text m.1, literalOf m.2)) := by
  rw [literalOf, decoded, hostValue_object, literal, Json.map_object, hostMembers, List.map_map]
  rfl

theorem jsonEqualItems_iff (ds ls : List Src) :
    (ds.length = ls.length ∧
      jsonEqualItems (ds.map (hostValue code dec)) (ls.map literalOf) = true) ↔
      List.Forall₂ (fun d l => jsonEqual (shown dec d) (literalOf l) = true) ds ls := by
  induction ds generalizing ls with
  | nil =>
    cases ls with
    | nil => simp [jsonEqualItems]
    | cons l ls => simp
  | cons d ds ih =>
    cases ls with
    | nil => simp
    | cons l ls =>
      rw [List.map_cons, List.map_cons, jsonEqualItems, Bool.and_eq_true, List.forall₂_cons, ← ih,
        viewElement_hostValue]
      simp only [List.length_cons, Nat.add_right_cancel_iff]
      tauto

theorem jsonEqualMembers_iff (ds ls : List (String × Src)) :
    jsonEqualMembers (hostMembers code dec ds) (ls.map fun m => (code.text m.1, literalOf m.2)) = true ↔
      ∀ l ∈ ls, ∃ d, Json.get? ds l.1 = some d ∧ jsonEqual (shown dec d) (literalOf l.2) = true := by
  induction ls with
  | nil => simp [jsonEqualMembers]
  | cons l ls ih =>
    rw [List.map_cons, jsonEqualMembers, Bool.and_eq_true, ih, List.forall_mem_cons, hostMembers,
      Json.get?_map code.text_injective]
    cases Json.get? ds l.1 with
    | none => simp
    | some d => simp [view_hostValue]

/-- **Deep equality with a literal is the engine's**: it asks for a partner of every
member of the literal, the engine for one of every member of the value, and the sizes
are equal. -/
theorem jsonEqual_eq (hdec : ∀ t, (dec t).double = t.double) (l : Src) (hl : l.Unique) (d : Src) (hd : d.Unique) :
    jsonEqual (shown dec d) (literalOf l) = jsonEq (engine d) (engine l) := by
  induction l using Json.ind generalizing d with
  | null => cases d <;> rfl
  | bool b => cases d <;> rfl
  | string s =>
    cases d with
    | string s' =>
      show decide (code.text s' = code.text s) = decide (s' = s)
      rw [decide_eq_decide, code.text_inj]
    | _ => rfl
  | number t =>
    cases d with
    | number t' =>
      show decide ((dec t').double.value = t.double.value) = decide (t'.serde.asF64 = t.serde.asF64)
      rw [hdec, NumText.asF64_serde, NumText.asF64_serde]
    | _ => rfl
  | array ls ih =>
    cases d with
    | array ds =>
      have hitems : jsonEqual (shown dec (.array ds)) (literalOf (.array ls)) = true ↔
          ds.length = ls.length ∧
            jsonEqualItems (ds.map (hostValue code dec)) (ls.map literalOf) = true := by
        rw [literalOf_array, shown_array, jsonEqual, Bool.and_eq_true]
        simp
      rw [Bool.eq_iff_iff, jsonEq_array, hitems, jsonEqualItems_iff, List.forall₂_iff_zip,
        List.forall₂_iff_zip]
      rw [Json.unique_array] at hl hd
      refine and_congr_right fun _ => forall₂_congr fun d l => imp_congr_right fun hmem => ?_
      obtain ⟨hdm, hlm⟩ := List.of_mem_zip hmem
      rw [ih l hlm (hl l hlm) d (hd d hdm)]
    | _ =>
      rw [literalOf_array]
      rfl
  | object ls ih =>
    cases d with
    | object ds =>
      have hmembers : jsonEqual (shown dec (.object ds)) (literalOf (.object ls)) = true ↔
          ds.length = ls.length ∧ ∀ l ∈ ls, ∃ d, Json.get? ds l.1 = some d ∧
            jsonEqual (shown dec d) (literalOf l.2) = true := by
        have hall : ((hostMembers code dec ds).filter fun m => (view m.2).2) = hostMembers code dec ds := by
          rw [List.filter_eq_self, hostMembers, List.forall_mem_map]
          exact fun m _ => by rw [view_hostValue]
        rw [literalOf_object, shown_object, jsonEqual, Bool.and_eq_true, hall,
          jsonEqualMembers_iff, and_comm]
        simp [hostMembers]
      rw [Json.unique_object] at hl hd
      rw [Bool.eq_iff_iff, jsonEq_object_right hd.1 hl.1, hmembers]
      refine and_congr_right fun _ => forall₂_congr fun l hlm => exists_congr fun d =>
        and_congr_right fun hget => ?_
      rw [ih l hlm (hl.2 l hlm) d (hd.2 _ (Json.mem_of_get? hget))]
    | _ =>
      rw [literalOf_object]
      rfl

/-! ### Paths -/

/-- A value and a presence flag stand for a value of the document, or for none. -/
def Sees (dec : NumText → Num) (w : GoValue × Bool) : Option Src → Prop
  | some d => Plain d ∧ w = (shown dec d, true)
  | none => w = (.null, false)

theorem canonicalIndex_eq (s : Units) : canonicalIndex s =
    if isDecimal s = true ∧ decimal s < 2 ^ 63 then some (decimal s) else none := by
  unfold canonicalIndex
  by_cases h : isDecimal s = true
  · obtain ⟨hne, hdigits, hzero⟩ := (isDecimal_iff s).mp h
    simp only [hne, hdigits, hzero, h, or_self, if_false, if_true, true_and]
  · have hnone : ¬ (isDecimal s = true ∧ decimal s < 2 ^ 63) := fun hc => h hc.1
    rw [isDecimal_iff] at h
    rw [if_neg hnone]
    by_cases hno : s = [] ∨ (s.head? = some 48 ∧ s.length > 1)
    · rw [if_pos hno]
    · have hdigits : ¬ s.all isDigit = true := fun hd =>
        h ⟨fun hs => hno (.inl hs), hd, fun hz => hno (.inr hz)⟩
      rw [if_neg hno, if_neg hdigits]

/-- A segment picks the same element of an array. -/
theorem index_eq {α β : Type} (f : α → β) (key : String) {items : List α}
    (h : items.length < 10 ^ 15) :
    ((canonicalIndex (code.text key)).bind fun i => (items.map f)[i]?) =
      ((Filter.canonicalIndex key).bind fun i => items[i]?).map f := by
  apply bind_getElem?_congr
  intro i hi
  rw [canonicalIndex_eq, canonicalIndex_text code]
  by_cases hc : isDecimal (code.text key) = true
  · simp only [hc, true_and, Option.ite_none_right_eq_some, Option.some.injEq]
    omega
  · simp [hc]

/-- **The walk over segments stops where the engine's does.** -/
theorem walk_sees {segs : List Filter.Segment}
    (hsegs : ∀ s ∈ segs, s.index = Filter.canonicalIndex s.key) {d : Src} (hd : Plain d) :
    ∃ v, Sees dec (walk (segs.map fun s => ⟨code.text s.key, canonicalIndex (code.text s.key)⟩)
        (shown dec d, true)) v ∧ v.map engine = Segment.walk segs (engine d) := by
  induction segs generalizing d with
  | nil => exact ⟨some d, ⟨hd, rfl⟩, rfl⟩
  | cons seg rest ih =>
    rw [List.forall_mem_cons] at hsegs
    rw [List.map_cons, Segment.walk]
    cases d with
    | object map =>
      rw [shown_object, engine_object]
      simp only [walk, Segment.step, get?_engineMembers, hostMembers,
        Json.get?_map code.text_injective]
      cases hget : Json.get? map seg.key with
      | none => exact ⟨none, rfl, rfl⟩
      | some member =>
        have hmember := hd.member _ (Json.mem_of_get? hget)
        simpa [view_hostValue] using ih hsegs.2 hmember
    | array items =>
      rw [shown_array, engine_array]
      have hlen : items.length < 10 ^ 15 := (Json.short_array.mp hd.short).1
      have hitem : ((Filter.canonicalIndex seg.key).bind fun i => (items.map engine)[i]?) =
          ((Filter.canonicalIndex seg.key).bind fun i => items[i]?).map engine :=
        bind_getElem?_congr engine fun _ _ => Iff.rfl
      simp only [walk, Segment.step, hsegs.1, index_eq (hostValue code dec) seg.key hlen, hitem]
      cases hi : (Filter.canonicalIndex seg.key).bind fun i => items[i]? with
      | none => exact ⟨none, rfl, rfl⟩
      | some item =>
        obtain ⟨i, -, hget⟩ := Option.bind_eq_some_iff.mp hi
        simpa [viewElement_hostValue] using ih hsegs.2 (hd.item item (List.mem_of_getElem? hget))
    | _ => exact ⟨none, rfl, rfl⟩

variable {v : Option Src} {w : GoValue × Bool}

theorem resolve_sees {p : Filter.Path} (hsegs : ∀ s ∈ p.segments, s.index = Filter.canonicalIndex s.key)
    (doc : GoDoc) (el : GoValue) (hv : ∀ d ∈ v, Plain d)
    (hload : (if p.root = .element then (el, true) else load doc p.root) =
      v.elim (.null, false) fun d => (shown dec d, true)) :
    ∃ w, Sees dec (resolve (hostPath code host.paths p) doc el) w ∧
      w.map engine = (v.map engine).bind (Segment.walk p.segments) := by
  have hresolve : resolve (hostPath code host.paths p) doc el =
      walk (p.segments.map fun s : Filter.Segment => ⟨code.text s.key, canonicalIndex (code.text s.key)⟩)
        (if p.root = .element then (el, true) else load doc p.root) := rfl
  rw [hresolve, hload]
  cases v with
  | none =>
    refine ⟨none, ?_, rfl⟩
    cases p.segments with
    | nil => rfl
    | cons seg rest => rfl
  | some d => exact walk_sees hsegs (hv d rfl)

/-! ### Operators -/

/-- The items of `$in` and `$nin` are taken when the language takes them. -/
theorem parseSet_ok (path name : Units) (operand : Src) (set : List GoValue) :
    parseSet path name (decoded operand) = .ok set ↔ ∃ items, operand = .array items ∧
      items.length ≤ maxSetItems ∧ items.all (fun i => literalOk (engine i)) = true ∧
      set = items.map literalOf := by
  cases operand with
  | array items =>
    rw [decoded, hostValue_array, parseSet, List.length_map]
    split_ifs with h
    · simp
      omega
    · have hforM : (items.map (hostValue code .number)).forM (checkLiteral path name 0) = .ok () ↔
          items.all (fun i => literalOk (engine i)) = true := by
        rw [forM_ok, List.forall_mem_map, List.all_eq_true]
        exact forall₂_congr fun i _ => checkLiteral_ok path name i
      rw [bind_pure_ok, hforM, List.map_map]
      simp only [Json.array.injEq, exists_eq_left']
      constructor
      · exact fun ⟨hall, hset⟩ => ⟨by omega, hall, hset.symm⟩
      · exact fun ⟨_, hall, hset⟩ => ⟨hall, hset.symm⟩
  | object map =>
    rw [decoded, hostValue_object]
    simp [parseSet]
  | _ => simp [hostValue, Json.map, parseSet]

theorem parseBound_isOk (path name : Units) (op : OpName) (operand : Src) :
    (∃ fn, parseBound path name op (decoded operand) = .ok fn) ↔ boundOk (engine operand) = true := by
  cases operand with
  | number t =>
    show (∃ fn, (checkNumber path name t >>= fun _ => pure _) = .ok fn) ↔ t.serde.inRange = true
    simp only [bind_pure_ok, checkNumber_ok, exists_and_left, exists_eq', and_true]
  | string s => exact ⟨fun _ => rfl, fun _ => ⟨_, rfl⟩⟩
  | object map =>
    rw [decoded, hostValue_object, engine_object]
    simp [parseBound, boundOk]
  | array items =>
    rw [decoded, hostValue_array, engine_array]
    simp [parseBound, boundOk]
  | _ => simp [hostValue, engine, Json.map, parseBound, boundOk]

/-- An ordering operator answers as the language orders. -/
theorem parseBound_reads (hdec : ∀ t, (dec t).double = t.double) {path name : Units} {op : OpName}
    {operand : Src} {fn : OpFn GoDoc (GoValue × Bool)} (h : parseBound path name op (decoded operand) = .ok fn)
    (hw : Sees dec w v) (doc : GoDoc) :
    fn w doc = (ordering (v.map engine) (engine operand)).any (accept op) := by
  cases operand with
  | number t =>
    obtain ⟨-, rfl⟩ := bind_pure_ok.mp (h : (checkNumber path name t >>= fun _ => pure _) = .ok fn)
    cases v with
    | none =>
      rw [show w = (.null, false) from hw]
      rfl
    | some d =>
      rw [hw.2]
      cases d with
      | number t' =>
        show (true && accept op (compare (dec t').double.value t.double.value)) =
          (some (compare t'.serde.asF64 t.serde.asF64)).any (accept op)
        rw [hdec, NumText.asF64_serde, NumText.asF64_serde]
        rfl
      | array items =>
        rw [shown_array, Option.map_some, engine_array]
        rfl
      | object map =>
        rw [shown_object, Option.map_some, engine_object]
        rfl
      | _ => rfl
  | string s =>
    cases h
    cases v with
    | none =>
      rw [show w = (.null, false) from hw]
      rfl
    | some d =>
      rw [hw.2]
      cases d with
      | array items =>
        rw [shown_array, Option.map_some, engine_array]
        rfl
      | object map =>
        rw [shown_object, Option.map_some, engine_object]
        rfl
      | _ => rfl
  | object map =>
    rw [decoded, hostValue_object] at h
    cases h
  | array items =>
    rw [decoded, hostValue_array] at h
    cases h
  | _ => cases h

theorem equal_reads (hdec : ∀ t, (dec t).double = t.double) {operand : Src} (hu : operand.Unique)
    (hw : Sees dec w v) :
    (w.2 && jsonEqual w.1 (literalOf operand)) = (v.map engine).any (jsonEq · (engine operand)) := by
  cases v with
  | none =>
    rw [show w = (.null, false) from hw]
    rfl
  | some d =>
    rw [hw.2, Bool.true_and, jsonEqual_eq hdec operand hu d hw.1.unique]
    rfl

theorem set_reads (hdec : ∀ t, (dec t).double = t.double) {items : List Src} (hu : ∀ i ∈ items, i.Unique)
    (hw : Sees dec w v) :
    (w.2 && (items.map literalOf).any (jsonEqual w.1)) =
      (v.map engine).any fun v => (items.map engine).any (jsonEq v) := by
  cases v with
  | none =>
    rw [show w = (.null, false) from hw]
    rfl
  | some d =>
    rw [hw.2, Bool.true_and, Option.map_some, Option.any_some, List.any_map, List.any_map]
    exact Lib.any_congr_mem fun i hi => jsonEqual_eq hdec i (hu i hi) d hw.1.unique

theorem parseSet_isOk (path name : Units) (operand : Src) :
    (∃ set, parseSet path name (decoded operand) = .ok set) ↔ setOk (engine operand) = true := by
  simp only [parseSet_ok]
  cases operand with
  | array items => simp [engine_array, setOk]
  | object map => simp [engine_object, setOk]
  | _ => simp [engine, Json.map, setOk]

theorem parseLeaf_isOk (path : Units) (name : String) (operand : Src)
    (hany : Filter.opName name ≠ .any) :
    (∃ op, parseLeaf path (code.text name) (decoded operand) = .ok op) ↔
      leafOk name (engine operand) = true := by
  have hset : ∀ f : List GoValue → OpFn GoDoc (GoValue × Bool),
      (∃ op, (do let set ← parseSet path (code.text name) (decoded operand); pure (f set)) = .ok op) ↔
        setOk (engine operand) = true := by
    intro f
    rw [← parseSet_isOk path (code.text name)]
    cases parseSet path (code.text name) (decoded operand) with
    | error e => simp [bind, Except.bind]
    | ok set => simp [bind, Except.bind, pure, Except.pure]
  unfold parseLeaf
  rw [opName_text]
  cases hn : Filter.opName name with
  | any => exact absurd hn hany
  | eq =>
    simp only [bind_pure_ok, checkLiteral_ok, exists_and_left, exists_eq', and_true, leafOk, hn]
  | ne =>
    simp only [bind_pure_ok, checkLiteral_ok, exists_and_left, exists_eq', and_true, leafOk, hn]
  | inSet => rw [leafOk_set (.inl hn)]; exact hset _
  | nin => rw [leafOk_set (.inr hn)]; exact hset _
  | existsIs =>
    cases operand with
    | array items => simp [hostValue_array, engine_array, leafOk, hn]
    | object map => simp [hostValue_object, engine_object, leafOk, hn]
    | _ => simp [hostValue, engine, Json.map, leafOk, hn, pure, Except.pure]
  | hasPrefix =>
    cases operand with
    | array items => simp [hostValue_array, engine_array, leafOk, hn]
    | object map => simp [hostValue_object, engine_object, leafOk, hn]
    | _ => simp [hostValue, engine, Json.map, leafOk, hn, pure, Except.pure]
  | combinator => simp [leafOk, hn]
  | unknown => simp [leafOk, hn]
  | _ =>
    rw [leafOk_bound (by rw [hn]; rfl)]
    exact parseBound_isOk path (code.text name) _ operand

theorem parseLeaf_reads (hdec : ∀ t, (dec t).double = t.double) {path : Units} {name : String} {operand : Src}
    {op : OpFn GoDoc (GoValue × Bool)} (hu : operand.Unique)
    (h : parseLeaf path (code.text name) (decoded operand) = .ok op) (doc : GoDoc) (hw : Sees dec w v) :
    op w doc = readLeaf name (engine operand) (v.map engine) := by
  unfold parseLeaf at h
  rw [opName_text] at h
  unfold readLeaf
  cases hn : Filter.opName name <;> rw [hn] at h <;> simp only at h ⊢
  case eq =>
    obtain ⟨-, rfl⟩ := bind_pure_ok.mp h
    exact equal_reads hdec hu hw
  case ne =>
    obtain ⟨-, rfl⟩ := bind_pure_ok.mp h
    rw [← equal_reads hdec hu hw, Bool.not_and]
  case inSet =>
    obtain ⟨set, hset, rfl⟩ := bind_map_ok h
    obtain ⟨items, rfl, -, -, rfl⟩ := (parseSet_ok path (code.text name) operand set).mp hset
    rw [engine_array]
    exact set_reads hdec (Json.unique_array.mp hu) hw
  case nin =>
    obtain ⟨set, hset, rfl⟩ := bind_map_ok h
    obtain ⟨items, rfl, -, -, rfl⟩ := (parseSet_ok path (code.text name) operand set).mp hset
    rw [engine_array]
    simp only
    rw [← set_reads hdec (Json.unique_array.mp hu) hw, Bool.not_and]
  case existsIs =>
    cases operand with
    | bool b =>
      cases h
      cases v with
      | none =>
        rw [show w = (.null, false) from hw]
        rfl
      | some d =>
        rw [hw.2]
        rfl
    | array items =>
      rw [decoded, hostValue_array] at h
      cases h
    | object map =>
      rw [decoded, hostValue_object] at h
      cases h
    | _ => cases h
  case hasPrefix =>
    cases operand with
    | string s =>
      cases h
      cases v with
      | none =>
        rw [show w = (.null, false) from hw]
        rfl
      | some d =>
        rw [hw.2]
        cases d with
        | array items =>
          rw [shown_array, Option.map_some, engine_array]
          rfl
        | object map =>
          rw [shown_object, Option.map_some, engine_object]
          rfl
        | _ => rfl
    | array items =>
      rw [decoded, hostValue_array] at h
      cases h
    | object map =>
      rw [decoded, hostValue_object] at h
      cases h
    | _ => cases h
  case any => cases h
  case combinator => cases h
  case unknown => cases h
  all_goals
    rw [parseBound_reads hdec h hw]
    cases ordering (v.map engine) (engine operand) with
    | none => rfl
    | some o => cases o <;> rfl

/-- A document of the host that stands for the roots `sd`. -/
def Reads (dec : NumText → Num) (doc : GoDoc) (sd : SrcDoc) : Prop :=
  ∀ r, r ≠ .element → doc r = (sd r).map (hostValue code dec) ∧ ∀ d ∈ sd r, Plain d

def Holds (dec : NumText → Num) (el : GoValue) (d : Src) : Prop := Plain d ∧ el = shown dec d

theorem items_view (d : Src) : items (shown dec d, true) = match d with
    | .array x => some (x.map (shown dec))
    | _ => none := by
  cases d with
  | array x =>
    rw [shown_array]
    simp only [items, List.map_map]
    exact congrArg some (List.map_congr_left fun i _ => viewElement_hostValue i)
  | object map =>
    rw [shown_object]
    rfl
  | _ => rfl

/-- **The Go operators, paths and elements answer as the language does.** -/
theorem host_faithful (hdec : ∀ t, (dec t).double = t.double) :
    Faithful host Num.number (fun f => f.Unique) (Holds dec) (Sees dec) (Reads dec) where
  good_array := fun h => Json.unique_array.mp h
  good_object := fun h => Json.unique_object.mp h
  members_perm := fun obj _ => List.perm_insertionSort _ obj
  leaf_ok := fun path name operand _ hany => parseLeaf_isOk path name operand hany
  leaf_reads := by
    intro path name operand op hu h w v d hw
    exact parseLeaf_reads hdec hu h d hw
  items_array := by
    intro w x hw
    obtain ⟨hplain, rfl⟩ := hw
    refine ⟨x.map (shown dec), items_view (.array x), ?_⟩
    rw [List.forall₂_map_left_iff]
    exact List.forall₂_same.mpr fun i hi => ⟨hplain.item i hi, rfl⟩
  items_other := by
    intro w v hw hno
    cases v with
    | none =>
      rw [show w = (.null, false) from hw]
      rfl
    | some d =>
      rw [hw.2]
      refine (items_view d).trans ?_
      cases d with
      | array x => exact absurd rfl (hno x)
      | _ => rfl
  sees_view := fun h => ⟨h.1, by rw [h.2]; rfl⟩
  resolve_outside := by
    intro raw p hp doc sd el hdoc
    obtain ⟨hroot, hsegs⟩ := Path.parse_ok hp
    have hne : p.root ≠ .element := fun h => by simpa using hroot.mp h
    obtain ⟨hvalue, hplain⟩ := hdoc p.root hne
    rw [Path.resolve, root_engineDoc sd none hne]
    refine resolve_sees hsegs doc el hplain ?_
    rw [if_neg hne, load, hvalue]
    cases sd p.root with
    | none => rfl
    | some d => exact view_hostValue d
  resolve_inside := by
    intro raw p hp doc sd el item _ hitem
    obtain ⟨hroot, hsegs⟩ := Path.parse_ok hp
    have helement : p.root = .element := hroot.mpr rfl
    obtain ⟨hplain, rfl⟩ := hitem
    have hplains : ∀ d ∈ some item, Plain d := fun d hd => by cases hd; exact hplain
    have hload : (if p.root = .element then (shown dec item, true) else load doc p.root) =
        (some item).elim (.null, false) fun d => (shown dec d, true) := if_pos helement
    rw [Path.resolve, helement]
    exact resolve_sees hsegs doc (shown dec item) hplains hload

end Documents

end Iii.Go
