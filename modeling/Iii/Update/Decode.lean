import Iii.Filter.Eval
import Iii.Lib.Lists
import Iii.Update.Script

/-! What `cjson` makes of a JSON value, and back.

`Decodes j v` says that the Lua value `v` is the JSON value `j`: numbers by the nearest
double, objects by what each key looks up, in whatever order the table keeps its
fields. On values without an empty array, decoding loses nothing: the table shows
whether it was an array or an object, and encoding gives the value back. -/
namespace Iii.Update
open Lib Filter Script

mutual
def Decodes : Value → LuaValue → Prop
  | .null, v => v = .null
  | .bool b, v => v = .boolean b
  | .number n, v => ∃ f, v = .number (some f) ∧ f.value = n.asF64
  | .string s, v => v = .string s
  | .array items, v => ∃ vals, v = .table vals [] ∧ DecodesItems items vals
  | .object members, v => ∃ fields, v = .table [] fields ∧ Assoc.Distinct members ∧
      Assoc.Distinct fields ∧ (∀ key, Assoc.get? members key = none → Assoc.get? fields key = none) ∧
      DecodesMembers members fields
def DecodesItems : List Value → List LuaValue → Prop
  | [], vals => vals = []
  | j :: rest, vals => ∃ v more, vals = v :: more ∧ Decodes j v ∧ DecodesItems rest more
def DecodesMembers : List (String × Value) → List (String × LuaValue) → Prop
  | [], _ => True
  | m :: rest, fields => (∃ v, Assoc.get? fields m.1 = some v ∧ Decodes m.2 v) ∧ DecodesMembers rest fields
end

theorem decodesItems_iff (items : List Value) (vals : List LuaValue) :
    DecodesItems items vals ↔ List.Forall₂ Decodes items vals := by
  induction items generalizing vals with
  | nil =>
    rw [DecodesItems, List.forall₂_nil_left_iff]
  | cons j rest ih =>
    rw [DecodesItems, List.forall₂_cons_left_iff]
    constructor
    · rintro ⟨v, more, rfl, hj, hrest⟩
      exact ⟨v, more, hj, (ih more).mp hrest, rfl⟩
    · rintro ⟨v, more, hj, hrest, rfl⟩
      exact ⟨v, more, rfl, hj, (ih more).mpr hrest⟩

theorem decodesMembers_iff (members : List (String × Value)) (fields : List (String × LuaValue)) :
    DecodesMembers members fields ↔
      ∀ m ∈ members, ∃ v, Assoc.get? fields m.1 = some v ∧ Decodes m.2 v := by
  induction members with
  | nil => simp [DecodesMembers]
  | cons m rest ih => rw [DecodesMembers, ih, List.forall_mem_cons]

theorem decodes_array {items : List Value} {v : LuaValue} :
    Decodes (.array items) v ↔ ∃ vals, v = .table vals [] ∧ List.Forall₂ Decodes items vals := by
  simp only [Decodes, decodesItems_iff]

/-- Two maps that look up related values under every key. -/
structure Related (members : List (String × Value)) (fields : List (String × LuaValue)) : Prop where
  left : Assoc.Distinct members
  right : Assoc.Distinct fields
  lookup : ∀ key, (Assoc.get? members key = none ∧ Assoc.get? fields key = none) ∨
    ∃ j v, Assoc.get? members key = some j ∧ Assoc.get? fields key = some v ∧ Decodes j v

theorem decodes_object {members : List (String × Value)} {v : LuaValue} :
    Decodes (.object members) v ↔ ∃ fields, v = .table [] fields ∧ Related members fields := by
  rw [Decodes]
  refine exists_congr fun fields => and_congr_right fun _ => ?_
  rw [decodesMembers_iff]
  constructor
  · rintro ⟨hm, hf, hnone, hsome⟩
    refine ⟨hm, hf, fun key => ?_⟩
    cases h : Assoc.get? members key with
    | none => exact .inl ⟨rfl, hnone key h⟩
    | some j =>
      obtain ⟨v, hv, hj⟩ := hsome _ (Assoc.mem_of_get? h)
      exact .inr ⟨j, v, rfl, hv, hj⟩
  · intro h
    refine ⟨h.left, h.right, fun key hnone => ?_, fun m hmem => ?_⟩
    · obtain ⟨-, hv⟩ | ⟨j, v, hj, -, -⟩ := h.lookup key
      · exact hv
      · rw [hnone] at hj
        cases hj
    · have hmem := Assoc.get?_of_mem h.left hmem
      obtain ⟨hj, -⟩ | ⟨j, v, hj, hv, hdec⟩ := h.lookup m.1
      · rw [hmem] at hj
        cases hj
      · rw [hmem] at hj
        cases hj
        exact ⟨v, hv, hdec⟩

theorem decodes_string {s : String} {v : LuaValue} : Decodes (.string s) v ↔ v = .string s := by
  rw [Decodes]

/-- Decoding never gives `nil`. -/
theorem Decodes.ne_nil {j : Value} {v : LuaValue} (h : Decodes j v) : v ≠ .nil := by
  rintro rfl
  cases j with
  | array items => simp [decodes_array] at h
  | object members => simp [decodes_object] at h
  | _ => simp [Decodes] at h

/-! ### Maps -/

section Related
variable {members new : List (String × Value)} {fields new' : List (String × LuaValue)}

theorem Related.nil : Related [] [] := ⟨List.nodup_nil, List.nodup_nil, fun _ => .inl ⟨rfl, rfl⟩⟩

theorem Related.insert (h : Related members fields) (key : String) {j : Value} {v : LuaValue}
    (hj : Decodes j v) : Related (Assoc.insert members key j) (Assoc.insert fields key v) := by
  refine ⟨Assoc.distinct_insert h.left key j, Assoc.distinct_insert h.right key v, fun key' => ?_⟩
  rw [Assoc.get?_insert, Assoc.get?_insert]
  split
  · exact .inr ⟨j, v, rfl, rfl, hj⟩
  · exact h.lookup key'

theorem Related.erase (h : Related members fields) (key : String) :
    Related (Assoc.erase members key) (Assoc.erase fields key) := by
  refine ⟨Assoc.distinct_erase h.left key, Assoc.distinct_erase h.right key, fun key' => ?_⟩
  rw [Assoc.get?_erase, Assoc.get?_erase]
  split
  · exact .inl ⟨rfl, rfl⟩
  · exact h.lookup key'

theorem Related.insertAll (h : Related members fields) (hnew : Related new new') :
    Related (Assoc.insertAll members new) (Assoc.insertAll fields new') := by
  refine ⟨Assoc.distinct_insertAll h.left new, Assoc.distinct_insertAll h.right new', fun key => ?_⟩
  rw [Assoc.get?_insertAll _ _ hnew.left, Assoc.get?_insertAll _ _ hnew.right]
  obtain ⟨hj, hv⟩ | ⟨j, v, hj, hv, hdec⟩ := hnew.lookup key
  · rw [hj, hv]
    exact h.lookup key
  · rw [hj, hv]
    exact .inr ⟨j, v, rfl, rfl, hdec⟩

theorem Related.get? (h : Related members fields) {key : String} {j : Value}
    (hj : Assoc.get? members key = some j) : ∃ v, Assoc.get? fields key = some v ∧ Decodes j v := by
  obtain ⟨hnone, -⟩ | ⟨j', v, hj', hv, hdec⟩ := h.lookup key
  · rw [hj] at hnone
    cases hnone
  · rw [hj] at hj'
    cases hj'
    exact ⟨v, hv, hdec⟩

theorem Related.get?_none (h : Related members fields) {key : String} (hj : Assoc.get? members key = none) :
    Assoc.get? fields key = none := by
  obtain ⟨-, hv⟩ | ⟨j, v, hj', -, -⟩ := h.lookup key
  · exact hv
  · rw [hj] at hj'
    cases hj'

/-- Every field is a member decoded. -/
theorem Related.of_mem (h : Related members fields) {m : String × LuaValue} (hm : m ∈ fields) :
    ∃ j, Assoc.get? members m.1 = some j ∧ Decodes j m.2 := by
  have hv := Assoc.get?_of_mem h.right hm
  obtain ⟨-, hnone⟩ | ⟨j, v, hj, hv', hdec⟩ := h.lookup m.1
  · rw [hv] at hnone
    cases hnone
  · rw [hv] at hv'
    cases hv'
    exact ⟨j, hj, hdec⟩

theorem Related.mem_keys (h : Related members fields) (key : String) :
    key ∈ members.map (·.1) ↔ key ∈ fields.map (·.1) := by
  rw [← not_iff_not, ← Assoc.get?_eq_none_iff, ← Assoc.get?_eq_none_iff]
  obtain ⟨hj, hv⟩ | ⟨j, v, hj, hv, -⟩ := h.lookup key <;> simp [hj, hv]

/-- A decoded object has the size of the object. -/
theorem Related.length (h : Related members fields) : members.length = fields.length := by
  have hperm := (List.perm_ext_iff_of_nodup h.left h.right).mpr h.mem_keys
  simpa using hperm.length_eq

end Related

/-! ### The values the two sides agree on -/

mutual
/-- No array or object is empty, keys are distinct, and numbers are integers within ±2^53. -/
def Tame : Value → Prop
  | .number n => n.Safe
  | .array items => items ≠ [] ∧ TameItems items
  | .object members => members ≠ [] ∧ Assoc.Distinct members ∧ TameMembers members
  | _ => True
def TameItems : List Value → Prop
  | [] => True
  | j :: rest => Tame j ∧ TameItems rest
def TameMembers : List (String × Value) → Prop
  | [] => True
  | m :: rest => Tame m.2 ∧ TameMembers rest
end

theorem tame_array {items : List Value} : Tame (.array items) ↔ items ≠ [] ∧ ∀ j ∈ items, Tame j := by
  have hitems : ∀ items, TameItems items ↔ ∀ j ∈ items, Tame j := by
    intro items
    induction items with
    | nil => exact ⟨fun _ _ h => absurd h List.not_mem_nil, fun _ => trivial⟩
    | cons j rest ih =>
      rw [List.forall_mem_cons]
      exact and_congr_right fun _ => ih
  exact and_congr_right fun _ => hitems items

theorem tame_object {members : List (String × Value)} : Tame (.object members) ↔
    members ≠ [] ∧ Assoc.Distinct members ∧ ∀ m ∈ members, Tame m.2 := by
  have hmembers : ∀ members, TameMembers members ↔ ∀ m ∈ members, Tame m.2 := by
    intro members
    induction members with
    | nil => exact ⟨fun _ _ h => absurd h List.not_mem_nil, fun _ => trivial⟩
    | cons m rest ih =>
      rw [List.forall_mem_cons]
      exact and_congr_right fun _ => ih
  exact and_congr_right fun _ => and_congr_right fun _ => hmembers members

theorem Tame.unique {j : Value} (h : Tame j) : j.Unique := by
  induction j using Json.ind with
  | array items ih =>
    rw [tame_array] at h
    rw [Json.unique_array]
    exact fun j hj => ih j hj (h.2 j hj)
  | object members ih =>
    rw [tame_object] at h
    obtain ⟨-, hdistinct, hall⟩ := h
    rw [Json.unique_object]
    exact ⟨hdistinct, fun m hm => ih m hm (hall m hm)⟩
  | _ => trivial

/-! ### Nesting -/

theorem jsonDepthItems_le (vals : List LuaValue) (k : Nat) :
    jsonDepthItems vals ≤ k ↔ ∀ v ∈ vals, jsonDepth v ≤ k := by
  induction vals with
  | nil => simp [jsonDepthItems]
  | cons v rest ih => rw [jsonDepthItems, Nat.max_le, ih, List.forall_mem_cons]

theorem jsonDepthFields_le (fields : List (String × LuaValue)) (k : Nat) :
    jsonDepthFields fields ≤ k ↔ ∀ m ∈ fields, jsonDepth m.2 ≤ k := by
  induction fields with
  | nil => simp [jsonDepthFields]
  | cons m rest ih => rw [jsonDepthFields, Nat.max_le, ih, List.forall_mem_cons]

/-- The script measures the nesting of the value. -/
theorem jsonDepth_of_decodes (j : Value) : ∀ v, Decodes j v → jsonDepth v = j.depth := by
  induction j using Json.ind with
  | array items ih =>
    intro v h
    obtain ⟨vals, rfl, hall⟩ := decodes_array.mp h
    have hitems : ∀ k, jsonDepthItems vals ≤ k ↔ Json.depthItems items ≤ k := by
      intro k
      rw [jsonDepthItems_le, Json.depthItems_le]
      clear h
      induction hall with
      | nil => simp
      | cons hj _ ihall =>
        rw [List.forall_mem_cons, List.forall_mem_cons, ih _ (List.mem_cons_self ..) _ hj,
          ihall fun j hj => ih j (List.mem_cons_of_mem _ hj)]
    have heq : jsonDepthItems vals = Json.depthItems items :=
      Nat.le_antisymm ((hitems _).mpr le_rfl) ((hitems _).mp le_rfl)
    rw [jsonDepth, Json.depth, heq, jsonDepthFields, Nat.max_zero]
  | object members ih =>
    intro v h
    obtain ⟨fields, rfl, hrel⟩ := decodes_object.mp h
    have hfields : ∀ k, jsonDepthFields fields ≤ k ↔ Json.depthMembers members ≤ k := by
      intro k
      rw [jsonDepthFields_le, Json.depthMembers_le]
      constructor
      · intro hle m hm
        obtain ⟨v, hv, hdec⟩ := hrel.get? (Assoc.get?_of_mem hrel.left hm)
        rw [← ih m hm v hdec]
        exact hle _ (Assoc.mem_of_get? hv)
      · intro hle m hm
        obtain ⟨j, hj, hdec⟩ := hrel.of_mem hm
        rw [ih _ (Assoc.mem_of_get? hj) _ hdec]
        exact hle _ (Assoc.mem_of_get? hj)
    have heq : jsonDepthFields fields = Json.depthMembers members :=
      Nat.le_antisymm ((hfields _).mpr le_rfl) ((hfields _).mp le_rfl)
    rw [jsonDepth, Json.depth, heq, jsonDepthItems, Nat.zero_max]
  | number n =>
    rintro v ⟨f, rfl, -⟩
    rfl
  | _ =>
    intro v h
    rw [Decodes] at h
    subst h
    rfl

/-! ### Encoding -/

/-- What the script assumes of Redis: a decoded value is that value, and the text of a
double that is a safe integer spells that integer. -/
structure Faithful (redis : Redis) : Prop where
  decode : ∀ j, j.Unique → Decodes j (redis.decode j)
  number : ∀ (n : Number) (f : F64), n.Safe → f.value = n.asF64 → (redis.number f).asF64 = n.asF64

section Encode
variable {redis : Redis}

theorem encodeItems_of_forall₂ {R : Value → LuaValue → Prop} {S : Value → Value → Prop}
    {items : List Value} {vals : List LuaValue} (h : List.Forall₂ R items vals)
    (hone : ∀ j ∈ items, ∀ v, R j v → ∃ j', redis.encode v = some j' ∧ S j j') :
    ∃ items', redis.encodeItems vals = some items' ∧ List.Forall₂ S items items' := by
  induction h with
  | nil => exact ⟨[], by rw [Redis.encodeItems], .nil⟩
  | @cons j v items vals hj _ ih =>
    obtain ⟨j', hj', hS⟩ := hone j (List.mem_cons_self ..) v hj
    obtain ⟨items', hitems, hSs⟩ := ih fun k hk => hone k (List.mem_cons_of_mem _ hk)
    exact ⟨j' :: items', by simp [Redis.encodeItems, hj', hitems], .cons hS hSs⟩

/-- Fields encode one by one, under their keys. -/
theorem encodeFields_of_mem {S : String → Value → Prop} {fields : List (String × LuaValue)}
    (hone : ∀ m ∈ fields, ∃ j', redis.encode m.2 = some j' ∧ S m.1 j') :
    ∃ members, redis.encodeFields fields = some members ∧
      members.map (·.1) = fields.map (·.1) ∧ ∀ m ∈ members, S m.1 m.2 := by
  induction fields with
  | nil => exact ⟨[], by rw [Redis.encodeFields], rfl, fun m hm => by cases hm⟩
  | cons m rest ih =>
    obtain ⟨j', hj', hS⟩ := hone m (List.mem_cons_self ..)
    obtain ⟨members, hmembers, hkeys, hSs⟩ := ih fun k hk => hone k (List.mem_cons_of_mem _ hk)
    refine ⟨(m.1, j') :: members, by simp [Redis.encodeFields, hj', hmembers], by simp [hkeys], ?_⟩
    rw [List.forall_mem_cons]
    exact ⟨hS, hSs⟩

/-- Encoding undoes decoding. -/
theorem encode_of_decodes (hredis : Faithful redis) (j : Value) (hj : Tame j) :
    ∀ v, Decodes j v → ∃ j', redis.encode v = some j' ∧ jsonEq j j' = true ∧ j'.Unique := by
  induction j using Json.ind with
  | array items ih =>
    intro v h
    obtain ⟨vals, rfl, hall⟩ := decodes_array.mp h
    obtain ⟨hne, htame⟩ := tame_array.mp hj
    obtain ⟨items', hitems, hS⟩ := encodeItems_of_forall₂ hall
      (S := fun j j' => jsonEq j j' = true ∧ j'.Unique) fun k hk v hv => ih k hk (htame k hk) v hv
    refine ⟨.array items', ?_, ?_, ?_⟩
    · cases hall with
      | nil => exact absurd rfl hne
      | cons _ _ => rw [Redis.encode, hitems]; rfl
    · rw [jsonEq_array_iff]
      exact hS.imp fun _ _ h => h.1
    · rw [Json.unique_array]
      intro k hk
      obtain ⟨_, -, h⟩ := exists_of_forall₂ hS k hk
      exact h.2
  | object members ih =>
    intro v h
    obtain ⟨fields, rfl, hrel⟩ := decodes_object.mp h
    obtain ⟨-, hdistinct, htame⟩ := tame_object.mp hj
    have hone : ∀ m ∈ fields, ∃ j', redis.encode m.2 = some j' ∧
        ∃ j, Assoc.get? members m.1 = some j ∧ jsonEq j j' = true ∧ j'.Unique := by
      intro m hm
      obtain ⟨j, hj, hdec⟩ := hrel.of_mem hm
      have hmem := Assoc.mem_of_get? hj
      obtain ⟨j', hj', heq, hu⟩ := ih _ hmem (htame _ hmem) _ hdec
      exact ⟨j', hj', j, hj, heq, hu⟩
    obtain ⟨members', henc, hkeys, hS⟩ := encodeFields_of_mem
      (S := fun key j' => ∃ j, Assoc.get? members key = some j ∧ jsonEq j j' = true ∧ j'.Unique) hone
    have hdistinct' : Assoc.Distinct members' := by
      unfold Assoc.Distinct
      rw [hkeys]
      exact hrel.right
    have hlen : members.length = members'.length := by
      rw [hrel.length, ← List.length_map (·.1), ← hkeys, List.length_map]
    refine ⟨.object members', by simp [Redis.encode, henc], ?_, ?_⟩
    · rw [jsonEq_object_iff]
      refine ⟨hlen, Json.partner_symm (R := fun j' j => jsonEq j j' = true) hdistinct' hdistinct hlen.symm ?_⟩
      intro m hm
      obtain ⟨j, hj, heq, -⟩ := hS m hm
      exact ⟨j, hj, heq⟩
    · rw [Json.unique_object]
      refine ⟨hdistinct', fun m hm => ?_⟩
      obtain ⟨_, -, -, hu⟩ := hS m hm
      exact hu
  | number n =>
    rintro v ⟨f, rfl, hf⟩
    refine ⟨.number (redis.number f), by simp [Redis.encode], ?_, trivial⟩
    simp only [jsonEq, decide_eq_true_eq]
    exact (hredis.number n f hj hf).symm
  | null =>
    rintro v rfl
    exact ⟨.null, by rw [Redis.encode], by rw [jsonEq], trivial⟩
  | bool b =>
    rintro v rfl
    exact ⟨.bool b, by rw [Redis.encode], by simp [jsonEq], trivial⟩
  | string s =>
    rintro v rfl
    exact ⟨.string s, by rw [Redis.encode], by simp [jsonEq], trivial⟩

end Encode

/-- A value decodes as any value equal to it. -/
theorem decodes_of_jsonEq (j : Value) (hj : j.Unique) :
    ∀ j' v, jsonEq j j' = true → Decodes j' v → Decodes j v := by
  induction j using Json.ind with
  | array items ih =>
    intro j' v heq h
    cases j' with
    | array items' =>
      obtain ⟨vals, rfl, hall⟩ := decodes_array.mp h
      rw [jsonEq_array_iff] at heq
      rw [Json.unique_array] at hj
      rw [decodes_array]
      refine ⟨vals, rfl, ?_⟩
      clear h
      induction heq generalizing vals with
      | nil => exact hall
      | @cons a b x y hab _ ihx =>
        obtain ⟨v, more, hv, hmore, rfl⟩ := List.forall₂_cons_left_iff.mp hall
        exact .cons (ih a (List.mem_cons_self ..) (hj a (List.mem_cons_self ..)) b v hab hv)
          (ihx (fun k hk => ih k (List.mem_cons_of_mem _ hk)) (fun k hk => hj k (List.mem_cons_of_mem _ hk))
            more hmore)
    | _ => simp [jsonEq] at heq
  | object members ih =>
    intro j' v heq h
    cases j' with
    | object members' =>
      obtain ⟨fields, rfl, hrel⟩ := decodes_object.mp h
      obtain ⟨hlen, hpartner⟩ := (jsonEq_object_iff _ _).mp heq
      obtain ⟨hdistinct, hu⟩ := Json.unique_object.mp hj
      have hback := Json.partner_symm (R := fun j j' => jsonEq j j' = true) hdistinct hrel.left hlen hpartner
      rw [decodes_object]
      refine ⟨fields, rfl, hdistinct, hrel.right, fun key => ?_⟩
      obtain ⟨hj', hv⟩ | ⟨j', v, hj', hv, hdec⟩ := hrel.lookup key
      · refine .inl ⟨?_, hv⟩
        rw [Assoc.get?_eq_none_iff]
        intro hmem
        obtain ⟨m, hm, rfl⟩ := List.mem_map.mp hmem
        obtain ⟨w, hw, -⟩ := hpartner m hm
        exact absurd (hj'.symm.trans hw) (by simp)
      · obtain ⟨j, hj, heq⟩ := hback _ (Assoc.mem_of_get? hj')
        have hmem := Json.mem_of_get? hj
        exact .inr ⟨j, v, hj, hv, ih _ hmem (hu _ hmem) j' v heq hdec⟩
    | _ => simp [jsonEq] at heq
  | number n =>
    intro j' v heq h
    cases j' with
    | number n' =>
      obtain ⟨f, rfl, hf⟩ := h
      simp only [jsonEq, decide_eq_true_eq] at heq
      exact ⟨f, rfl, by rw [hf, heq]⟩
    | _ => simp [jsonEq] at heq
  | null =>
    intro j' v heq h
    cases j' with
    | null => exact h
    | _ => simp [jsonEq] at heq
  | bool b =>
    intro j' v heq h
    cases j' with
    | bool b' =>
      simp only [jsonEq, decide_eq_true_eq] at heq
      rw [heq]
      exact h
    | _ => simp [jsonEq] at heq
  | string s =>
    intro j' v heq h
    cases j' with
    | string s' =>
      simp only [jsonEq, decide_eq_true_eq] at heq
      rw [heq]
      exact h
    | _ => simp [jsonEq] at heq

end Iii.Update
