import Iii.Python.Value
import Mathlib.Data.List.Find

/-! Members of a dict, read one at a time and all at once.

What JSON makes of a dict is decided by `lastWritten`: the value of the last item whose
key writes as the name asked for. `to_json_value` keeps that value where JSON does
(`get?_toJsonMembers`), `json_equals` counts by it (`get?_jsonMembers`), and so does the
slow path of `object_member`. The fast path asks the dict itself, and `fast_lookup` says
what is left between the two: an item under a key that equals a `str` without being
one. -/
namespace Iii.Python
open Sdk Lib

/-! ### Keys -/

theorem digits_first (n : Nat) : ∃ u rest, code.text (toString n) = u :: rest ∧ isDigit u = true := by
  have hchars : (toString n).toList = Nat.toDigits 10 n := Nat.toList_repr
  have hmap : code.text (toString n) = (Nat.toDigits 10 n).map Char.toNat := by
    rw [UnitCode.text, hchars]
    exact List.flatMap_pure_eq_map Char.toNat _
  cases hdigits : Nat.toDigits 10 n with
  | nil => exact absurd hdigits Nat.toDigits_ne_nil
  | cons c rest =>
    have hc : c ∈ Nat.toDigits 10 n := by
      rw [hdigits]
      exact List.mem_cons_self ..
    refine ⟨c.toNat, rest.map Char.toNat, by rw [hmap, hdigits]; rfl, ?_⟩
    rw [isDigit_char]
    exact Nat.isDigit_of_mem_toDigits (by decide) (by decide) hc

theorem int_first (n : Int) :
    ∃ u rest, code.text (toString n) = u :: rest ∧ (u = 45 ∨ isDigit u = true) := by
  cases n with
  | ofNat n =>
    obtain ⟨u, rest, h, hu⟩ := digits_first n
    exact ⟨u, rest, h, .inr hu⟩
  | negSucc n =>
    refine ⟨45, code.text (toString (n + 1)), ?_, .inl rfl⟩
    show code.text ("-" ++ toString (n + 1)) = _
    rw [UnitCode.text, String.toList_append, code.encode_append]
    rfl

section Keys
variable {R : FloatRepr}

variable {key : Units}

/-- A name no number, `bool` or `None` writes as is written by the `str` alone. -/
theorem jsonKey_fast {k : Key} (h : jsonKey R k = some key) (hfast : maybeFromNonString key = false) :
    k = .str key := by
  rw [maybeFromNonString.eq_def, Bool.or_eq_false_iff] at hfast
  have hform : ∀ s : String, code.text s ∈ nonStringForms → key ≠ code.text s := by
    intro s hs heq
    rw [heq, List.contains_eq_mem, decide_eq_false_iff_not] at hfast
    exact hfast.1 hs
  have hfirst : ∀ u rest, key = u :: rest → ¬ (u = 45 ∨ isDigit u = true) := by
    intro u rest heq hu
    rw [heq] at hfast
    have hplain : (decide (u = 45) || isDigit u) = false := hfast.2
    rw [Bool.or_eq_false_iff, decide_eq_false_iff_not] at hplain
    rcases hu with hu | hu
    · exact hplain.1 hu
    · rw [hplain.2] at hu
      cases hu
  have hmem : ∀ s ∈ ["true", "false", "null", "NaN", "Infinity", "-Infinity"],
      code.text s ∈ nonStringForms := fun s hs => List.mem_map_of_mem hs
  cases k with
  | str s =>
    cases h
    rfl
  | bool b =>
    cases b with
    | false =>
      cases h
      exact absurd rfl (hform "false" (hmem _ (by decide)))
    | true =>
      cases h
      exact absurd rfl (hform "true" (hmem _ (by decide)))
  | none =>
    cases h
    exact absurd rfl (hform "null" (hmem _ (by decide)))
  | int n =>
    obtain ⟨u, rest, htext, hu⟩ := int_first n
    rw [jsonKey, htext] at h
    cases h
    exact absurd hu (hfirst u rest rfl)
  | float x =>
    cases x with
    | finite f =>
      obtain ⟨u, rest, htext, hu⟩ := R.first f
      rw [jsonKey, htext] at h
      cases h
      exact absurd hu (hfirst u rest rfl)
    | inf neg =>
      cases neg with
      | false =>
        cases h
        exact absurd rfl (hform "Infinity" (hmem _ (by decide)))
      | true =>
        cases h
        exact absurd rfl (hform "-Infinity" (hmem _ (by decide)))
    | nan =>
      cases h
      exact absurd rfl (hform "NaN" (hmem _ (by decide)))
  | other equal => cases h

/-- Such a name is found under a key that writes as it, or under one that only equals it. -/
theorem jsonKey_of_string? {k : Key} (h : k.string? = some key) :
    jsonKey R k = if k.isStr then some key else none := by
  cases k with
  | str s =>
    cases h
    rfl
  | other equal => rfl
  | _ => cases h

variable {items : Items}

theorem lookup_some {m : Key × PyValue} (h : lookup items key = some m) :
    m ∈ items ∧ m.1.string? = some key :=
  ⟨List.mem_of_find?_eq_some h, by simpa using List.find?_some h⟩

/-! ### The last item -/

theorem lastWritten_absent {found : Option PyValue} (h : ∀ m ∈ items, jsonKey R m.1 ≠ some key) :
    lastWritten R key found items = found := by
  induction items with
  | nil => rfl
  | cons m rest ih =>
    rw [List.forall_mem_cons] at h
    rw [lastWritten, if_neg h.1, ih h.2]

theorem lastWritten_mem {found : Option PyValue} {v : PyValue} (h : lastWritten R key found items = some v) :
    found = some v ∨ ∃ m ∈ items, jsonKey R m.1 = some key ∧ m.2 = v := by
  induction items generalizing found with
  | nil => exact .inl h
  | cons m rest ih =>
    rw [lastWritten] at h
    rcases ih h with hfound | ⟨m', hm', hkey⟩
    · split at hfound
      · rename_i hkey
        cases hfound
        exact .inr ⟨m, List.mem_cons_self .., hkey, rfl⟩
      · exact .inl hfound
    · exact .inr ⟨m', List.mem_cons_of_mem _ hm', hkey⟩

/-- At most one key of a dict equals a given `str`. -/
def DistinctKeys (items : Items) : Prop := (items.filterMap fun m => m.1.string?).Nodup

theorem DistinctKeys.rest {m : Key × PyValue} {rest : Items} (h : DistinctKeys (m :: rest)) :
    DistinctKeys rest := by
  unfold DistinctKeys at h
  rw [List.filterMap_cons] at h
  split at h
  · exact h
  · exact (List.nodup_cons.mp h).2

theorem DistinctKeys.fresh {m : Key × PyValue} {rest : Items} (h : DistinctKeys (m :: rest))
    (hm : m.1.string? = some key) : ∀ m' ∈ rest, m'.1.string? ≠ some key := by
  unfold DistinctKeys at h
  rw [List.filterMap_cons, hm] at h
  intro m' hm' heq
  exact (List.nodup_cons.mp h).1 (List.mem_filterMap.mpr ⟨m', hm', heq⟩)

/-- The fast path against the last item written: they differ by a key that is no `str`. -/
theorem fast_lookup (hd : DistinctKeys items) (hfast : maybeFromNonString key = false) :
    lastWritten R key none items =
      (lookup items key).bind fun m => if m.1.isStr then some m.2 else none := by
  induction items with
  | nil => rfl
  | cons m rest ih =>
    rw [lastWritten, lookup, List.find?_cons]
    by_cases hm : m.1.string? = some key
    · have habsent : ∀ m' ∈ rest, jsonKey R m'.1 ≠ some key := by
        intro m' hm' hkey
        have hstr := jsonKey_fast hkey hfast
        exact hd.fresh hm m' hm' (by rw [hstr]; rfl)
      rw [lastWritten_absent habsent, decide_eq_true hm, jsonKey_of_string? hm]
      cases hstr : m.1.isStr <;> simp [hstr]
    · have hkey : jsonKey R m.1 ≠ some key := by
        intro hkey
        rw [jsonKey_fast hkey hfast] at hm
        exact hm rfl
      rw [if_neg hkey, ih hd.rest, decide_eq_false hm]
      rfl

/-! ### What JSON keeps -/

/-- What a step shows is JSON-shaped: showing it again changes nothing. -/
theorem jsonView_jsonView {v x : PyValue} (h : jsonView v = some x) : jsonView x = some x := by
  fun_induction jsonView v with
  | case8 n hfits =>
    cases h
    rw [jsonView, if_neg hfits]
  | case9 f hfinite =>
    cases h
    rw [jsonView, if_pos hfinite]
  | case12 finite double _ hfinite =>
    cases h
    rw [jsonView, if_pos hfinite]
  | case16 answer ih => exact ih h
  | case17 => cases h
  | _ =>
    cases h
    rfl

theorem jsonView_toJsonValue {v y : PyValue} (h : toJsonValue R v = some y) : jsonView y = some y := by
  rw [toJsonValue_eq] at h
  cases hv : jsonView v with
  | none =>
    rw [hv] at h
    cases h
  | some x =>
    rw [hv] at h
    cases x with
    | dict items =>
      cases h
      rfl
    | list items =>
      cases h
      rfl
    | tuple items =>
      cases h
      rfl
    | _ =>
      cases h
      exact jsonView_jsonView hv

/-- The two forms leave out the same values. -/
theorem isSome_toJsonValue (v : PyValue) : (toJsonValue R v).isSome = (jsonView v).isSome := by
  rw [toJsonValue_eq]
  cases jsonView v with
  | none => rfl
  | some x => cases x <;> rfl

/-! ### The converted dict -/

/-- A dict as `to_json_value` builds it: distinct `str` keys, and values in JSON's form. -/
structure Converted (out : Items) : Prop where
  distinct : Assoc.Distinct out
  strs : ∀ m ∈ out, ∃ s, m.1 = .str s
  views : ∀ m ∈ out, jsonView m.2 = some m.2

theorem Converted.nil : Converted [] := by
  refine ⟨List.nodup_nil, fun m hm => ?_, fun m hm => ?_⟩
  · cases hm
  · cases hm

theorem Converted.insert {out : Items} (h : Converted out) (key : Units) {v : PyValue}
    (hv : jsonView v = some v) : Converted (Assoc.insert out (.str key) v) := by
  refine ⟨Assoc.distinct_insert h.distinct _ _, fun m hm => ?_, fun m hm => ?_⟩
  · rcases Assoc.mem_insert hm with hm | rfl
    · exact h.strs m hm
    · exact ⟨key, rfl⟩
  · rcases Assoc.mem_insert hm with hm | rfl
    · exact h.views m hm
    · exact hv

theorem Converted.erase {out : Items} (h : Converted out) (key : Units) :
    Converted (Assoc.erase out (.str key)) :=
  ⟨Assoc.distinct_erase h.distinct _, fun m hm => h.strs m (List.mem_of_mem_filter hm),
    fun m hm => h.views m (List.mem_of_mem_filter hm)⟩

theorem Converted.toJsonMembers {out : Items} (h : Converted out) :
    Converted (toJsonMembers R items out) := by
  induction items generalizing out with
  | nil => exact h
  | cons m rest ih =>
    rw [Python.toJsonMembers]
    split
    · exact ih h
    · rename_i key hkey
      split
      · exact ih (h.erase key)
      · rename_i mapped hmapped
        exact ih (h.insert key (jsonView_toJsonValue hmapped))

/-- The converted dict looks up what JSON makes of the last item written. -/
theorem get?_toJsonMembers (items : Items) (key : Units) :
    Assoc.get? (toJsonMembers R items []) (.str key) =
      (lastWritten R key none items).bind (toJsonValue R) := by
  have hloop : ∀ (items out : Items) (found : Option PyValue),
      Assoc.get? out (.str key) = found.bind (toJsonValue R) →
      Assoc.get? (toJsonMembers R items out) (.str key) =
        (lastWritten R key found items).bind (toJsonValue R) := by
    intro items
    induction items with
    | nil => exact fun out found h => h
    | cons m rest ih =>
      intro out found h
      rw [toJsonMembers, lastWritten]
      cases hkey : jsonKey R m.1 with
      | none => exact ih out found h
      | some key' =>
        by_cases hsame : key' = key
        · subst hsame
          rw [if_pos rfl]
          cases hmapped : toJsonValue R m.2 with
          | none =>
            refine ih _ _ ?_
            rw [Assoc.get?_erase, if_pos rfl, Option.bind_some, hmapped]
          | some mapped =>
            refine ih _ _ ?_
            rw [Assoc.get?_insert, if_pos rfl, Option.bind_some, hmapped]
        · have hne : Key.str key' ≠ Key.str key := fun heq => hsame (Key.str.inj heq)
          rw [if_neg fun heq => hsame (Option.some.inj heq)]
          cases hmapped : toJsonValue R m.2 with
          | none =>
            refine ih _ _ ?_
            rw [Assoc.get?_erase, if_neg hne, h]
          | some mapped =>
            refine ih _ _ ?_
            rw [Assoc.get?_insert, if_neg hne, h]
  exact hloop items [] none rfl

section ConvertedMember
variable {out : Items} (h : Converted out)

include h in
theorem Converted.lookup (key : Units) :
    (lookup out key).map (·.2) = Assoc.get? out (.str key) := by
  unfold Python.lookup Assoc.get?
  congr 1
  refine List.find?_congr fun m hm => ?_
  obtain ⟨s, hs⟩ := h.strs m hm
  rw [hs]
  simp [Key.string?]

include h in
theorem Converted.lastWritten (key : Units) : lastWritten R key none out = Assoc.get? out (.str key) := by
  obtain ⟨hdistinct, hstrs, -⟩ := h
  induction out with
  | nil => rfl
  | cons m rest ih =>
    rw [List.forall_mem_cons] at hstrs
    obtain ⟨hfresh, hrest⟩ := List.nodup_cons.mp hdistinct
    obtain ⟨s, hs⟩ := hstrs.1
    rw [Python.lastWritten, Assoc.get?_cons, hs, jsonKey]
    by_cases hsame : s = key
    · subst hsame
      rw [if_pos rfl, if_pos rfl]
      refine lastWritten_absent fun m' hm' hkey => hfresh ?_
      obtain ⟨s', hs'⟩ := hstrs.2 m' hm'
      rw [hs', jsonKey] at hkey
      have hkeys : m'.1 = m.1 := by rw [hs, hs', Option.some.inj hkey]
      show m.1 ∈ rest.map (·.1)
      rw [← hkeys]
      exact List.mem_map_of_mem hm'
    · rw [if_neg fun heq => hsame (Option.some.inj heq), if_neg fun heq => hsame (Key.str.inj heq)]
      exact ih hrest hstrs.2

include h in
/-- Both paths of `object_member` read a converted dict alike. -/
theorem Converted.objectMember (key : Units) :
    objectMember R out key = Assoc.get? out (.str key) := by
  have hview : (Assoc.get? out (.str key)).bind jsonView = Assoc.get? out (.str key) := by
    cases hget : Assoc.get? out (.str key) with
    | none => rfl
    | some v => exact h.views _ (Assoc.mem_of_get? hget)
  unfold Python.objectMember
  split
  · rw [← hview, ← h.lookup key, Option.bind_map]
    rfl
  · rw [h.lastWritten key, hview]

end ConvertedMember

/-! ### Counting members -/

theorem distinct_jsonMembers (items : Items) : Assoc.Distinct (jsonMembers R [] items) := by
  have hloop : ∀ (items : Items) (members : List (Units × PyValue)), Assoc.Distinct members →
      Assoc.Distinct (jsonMembers R members items) := by
    intro items
    induction items with
    | nil => exact fun members h => h
    | cons m rest ih =>
      intro members h
      rw [jsonMembers]
      split
      · exact ih _ (Assoc.distinct_insert h _ _)
      · exact ih _ h
  exact hloop items [] List.nodup_nil

theorem get?_jsonMembers (items : Items) (key : Units) :
    Assoc.get? (jsonMembers R [] items) key = lastWritten R key none items := by
  have hloop : ∀ (items : Items) (members : List (Units × PyValue)),
      Assoc.get? (jsonMembers R members items) key =
        lastWritten R key (Assoc.get? members key) items := by
    intro items
    induction items with
    | nil => exact fun _ => rfl
    | cons m rest ih =>
      intro members
      rw [jsonMembers, lastWritten]
      cases hkey : jsonKey R m.1 with
      | none =>
        rw [if_neg (by simp)]
        exact ih members
      | some key' =>
        show Assoc.get? (jsonMembers R (Assoc.insert members key' m.2) rest) key = _
        rw [ih, Assoc.get?_insert]
        by_cases hsame : key' = key
        · rw [if_pos hsame, if_pos (congrArg some hsame)]
        · rw [if_neg hsame, if_neg fun heq => hsame (Option.some.inj heq)]
  exact hloop items []

/-- The members JSON keeps. -/
def presentMembers (members : List (Units × PyValue)) : List (Units × PyValue) :=
  members.filter fun m => (jsonView m.2).isSome

/-- Stopping early changes nothing. -/
theorem holdsExactly_eq (limit present : Nat) (members : List (Units × PyValue)) (h : present ≤ limit) :
    holdsExactly limit present members = decide (present + (presentMembers members).length = limit) := by
  induction members generalizing present with
  | nil => rfl
  | cons m rest ih =>
    rw [holdsExactly, presentMembers, List.filter_cons]
    cases hview : jsonView m.2 with
    | none => exact ih present h
    | some x =>
      show (if present + 1 > limit then false else _) = _
      by_cases hfull : present + 1 > limit
      · rw [if_pos hfull]
        symm
        rw [decide_eq_false_iff_not, Option.isSome_some, if_pos rfl, List.length_cons]
        omega
      · rw [if_neg hfull, ih _ (by omega), Option.isSome_some, if_pos rfl, List.length_cons, presentMembers,
          decide_eq_decide]
        omega

theorem mem_presentKeys :
    key ∈ (presentMembers (jsonMembers R [] items)).map (·.1) ↔
      ((lastWritten R key none items).bind jsonView).isSome = true := by
  have hdistinct := distinct_jsonMembers (R := R) items
  rw [← get?_jsonMembers]
  constructor
  · intro h
    obtain ⟨m, hm, rfl⟩ := List.mem_map.mp h
    obtain ⟨hmem, hview⟩ := List.mem_filter.mp hm
    rw [Assoc.get?_of_mem hdistinct hmem]
    exact hview
  · intro h
    cases hget : Assoc.get? (jsonMembers R [] items) key with
    | none =>
      rw [hget] at h
      cases h
    | some v =>
      rw [hget] at h
      exact List.mem_map.mpr ⟨(key, v), List.mem_filter.mpr ⟨Assoc.mem_of_get? hget, h⟩, rfl⟩

/-- A dict and its converted form hold as many members. -/
theorem present_toJsonMembers (items : Items) :
    (presentMembers (jsonMembers R [] (toJsonMembers R items []))).length =
      (presentMembers (jsonMembers R [] items)).length := by
  have hnodup : ∀ items : Items, ((presentMembers (jsonMembers R [] items)).map (·.1)).Nodup :=
    fun items => (List.filter_sublist.map _).nodup (distinct_jsonMembers items)
  have hperm := (List.perm_ext_iff_of_nodup (hnodup (toJsonMembers R items [])) (hnodup items)).mpr ?_
  · have hlength := hperm.length_eq
    rwa [List.length_map, List.length_map] at hlength
  · intro key
    have hconv : Converted (toJsonMembers R items []) := Converted.nil.toJsonMembers
    rw [mem_presentKeys, mem_presentKeys, hconv.lastWritten, get?_toJsonMembers]
    cases lastWritten R key none items with
    | none => rfl
    | some v =>
      show ((toJsonValue R v).bind jsonView).isSome = true ↔ (jsonView v).isSome = true
      rw [← isSome_toJsonValue (R := R) v]
      cases hmapped : toJsonValue R v with
      | none => rfl
      | some y =>
        rw [Option.bind_some, jsonView_toJsonValue hmapped]

end Keys

end Iii.Python
