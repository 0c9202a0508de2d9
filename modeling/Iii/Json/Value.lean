import Mathlib.Algebra.Ring.Nat
import Mathlib.Data.List.Nodup
import Mathlib.Data.List.Perm.Subperm

/-! JSON values, over any strings and any numbers.

The engine, the Go SDK and the Node SDK hold the same JSON value in different
machine types: `serde_json` numbers against doubles, UTF-8 against UTF-16. `Json`
is generic in both, so that each program is modelled on its own values and `map`
says what one program's value is for another.

An object is its list of members in iteration order. Whatever order the map type
keeps (sorted, insertion order), its keys are distinct; that is `Unique`. -/
namespace Iii

inductive Json (σ ν : Type) where
  | null
  | bool (b : Bool)
  | number (n : ν)
  | string (s : σ)
  | array (items : List (Json σ ν))
  | object (members : List (σ × Json σ ν))
  deriving Inhabited

namespace Json
variable {σ ν σ' ν' : Type}

/-- Induction over a value with the hypothesis on every item and every member. -/
@[elab_as_elim]
theorem ind {P : Json σ ν → Prop} (null : P .null) (bool : ∀ b, P (.bool b))
    (number : ∀ n, P (.number n)) (string : ∀ s, P (.string s))
    (array : ∀ items, (∀ j ∈ items, P j) → P (.array items))
    (object : ∀ members, (∀ m ∈ members, P m.2) → P (.object members)) (j : Json σ ν) : P j :=
  @Json.rec σ ν P (fun items => ∀ j ∈ items, P j) (fun members => ∀ m ∈ members, P m.2)
    (fun m => P m.2) null bool number string array object
    (fun _ h => by cases h)
    (fun _ _ hj hrest _ h => by
      rcases List.mem_cons.mp h with rfl | h
      · exact hj
      · exact hrest _ h)
    (fun _ h => by cases h)
    (fun _ _ hm hrest _ h => by
      rcases List.mem_cons.mp h with rfl | h
      · exact hm
      · exact hrest _ h)
    (fun _ _ h => h) j

/-! ### Members -/

/-- `map.get(key)`. -/
def get? [DecidableEq σ] (members : List (σ × Json σ ν)) (key : σ) : Option (Json σ ν) :=
  (members.find? (fun m => m.1 = key)).map (·.2)

section Get
variable [DecidableEq σ]

@[simp] theorem get?_nil (key : σ) : get? ([] : List (σ × Json σ ν)) key = none := rfl

theorem get?_cons (m : σ × Json σ ν) (rest : List (σ × Json σ ν)) (key : σ) :
    get? (m :: rest) key = if m.1 = key then some m.2 else get? rest key := by
  unfold get?
  rw [List.find?_cons]
  by_cases h : m.1 = key <;> simp [h]

variable {members : List (σ × Json σ ν)}

theorem mem_of_get? {key : σ} {j : Json σ ν} (h : get? members key = some j) : (key, j) ∈ members := by
  unfold get? at h
  obtain ⟨m, hm, rfl⟩ := Option.map_eq_some_iff.mp h
  have hkey : m.1 = key := by simpa using List.find?_some hm
  have hmem := List.mem_of_find?_eq_some hm
  rw [← hkey]
  exact hmem

/-- Among distinct keys a member is what its key looks up. -/
theorem get?_of_mem (hu : (members.map (·.1)).Nodup) {m : σ × Json σ ν} (hm : m ∈ members) :
    get? members m.1 = some m.2 := by
  induction members with
  | nil => cases hm
  | cons a rest ih =>
    rw [List.map_cons, List.nodup_cons] at hu
    rw [get?_cons]
    rcases List.mem_cons.mp hm with rfl | hm
    · rw [if_pos rfl]
    · rw [if_neg, ih hu.2 hm]
      intro h
      exact hu.1 (h ▸ List.mem_map_of_mem hm)

theorem get?_eq_some_iff (hu : (members.map (·.1)).Nodup) {key : σ} {j : Json σ ν} :
    get? members key = some j ↔ (key, j) ∈ members :=
  ⟨mem_of_get?, fun h => get?_of_mem hu h⟩

/-- The order of the members does not matter to a lookup. -/
theorem get?_perm {a b : List (σ × Json σ ν)} (hu : (a.map (·.1)).Nodup) (h : a.Perm b) (key : σ) :
    get? a key = get? b key := by
  have hub : (b.map (·.1)).Nodup := ((h.map _).nodup_iff).mp hu
  apply Option.ext
  intro j
  rw [get?_eq_some_iff hu, get?_eq_some_iff hub, h.mem_iff]

/-- Two objects of one size with distinct keys: if every member of one has a partner
under its key in the other, the other way round too. -/
theorem partner_symm {ν' : Type} {a : List (σ × Json σ ν)} {b : List (σ × Json σ ν')}
    (ha : (a.map (·.1)).Nodup) (hb : (b.map (·.1)).Nodup) (hlen : a.length = b.length)
    {R : Json σ ν → Json σ ν' → Prop} (h : ∀ m ∈ a, ∃ w, get? b m.1 = some w ∧ R m.2 w) :
    ∀ m ∈ b, ∃ v, get? a m.1 = some v ∧ R v m.2 := by
  have hsub : a.map (·.1) ⊆ b.map (·.1) := by
    intro key hkey
    obtain ⟨m, hm, rfl⟩ := List.mem_map.mp hkey
    obtain ⟨w, hw, -⟩ := h m hm
    exact List.mem_map.mpr ⟨(m.1, w), mem_of_get? hw, rfl⟩
  have hperm : (a.map (·.1)).Perm (b.map (·.1)) :=
    (List.subperm_of_subset ha hsub).perm_of_length_le (by simp [hlen])
  intro m hm
  obtain ⟨n, hn, hkey⟩ := List.mem_map.mp (hperm.mem_iff.mpr (List.mem_map_of_mem hm))
  obtain ⟨w, hw, hR⟩ := h n hn
  rw [hkey, get?_of_mem hb hm] at hw
  cases hw
  exact ⟨n.2, by rw [← hkey]; exact get?_of_mem ha hn, hR⟩

end Get

/-! ### Distinct keys -/

mutual
/-- Every object of the value has distinct keys: the invariant of the map types. -/
def Unique : Json σ ν → Prop
  | .array items => UniqueItems items
  | .object members => (members.map (·.1)).Nodup ∧ UniqueMembers members
  | _ => True
def UniqueItems : List (Json σ ν) → Prop
  | [] => True
  | j :: rest => Unique j ∧ UniqueItems rest
def UniqueMembers : List (σ × Json σ ν) → Prop
  | [] => True
  | m :: rest => Unique m.2 ∧ UniqueMembers rest
end

theorem uniqueItems_iff (items : List (Json σ ν)) : UniqueItems items ↔ ∀ j ∈ items, Unique j := by
  induction items with
  | nil => exact iff_of_true trivial (List.forall_mem_nil _)
  | cons j rest ih =>
    rw [List.forall_mem_cons, ← ih]
    rfl

theorem uniqueMembers_iff (members : List (σ × Json σ ν)) :
    UniqueMembers members ↔ ∀ m ∈ members, Unique m.2 := by
  induction members with
  | nil => exact iff_of_true trivial (List.forall_mem_nil _)
  | cons m rest ih =>
    rw [List.forall_mem_cons, ← ih]
    rfl

variable {members : List (σ × Json σ ν)} {items : List (Json σ ν)}

theorem unique_array : Unique (.array items) ↔ ∀ j ∈ items, Unique j :=
  uniqueItems_iff items

theorem unique_object :
    Unique (.object members) ↔ (members.map (·.1)).Nodup ∧ ∀ m ∈ members, Unique m.2 :=
  and_congr_right fun _ => uniqueMembers_iff members

/-! ### Nesting -/

mutual
/-- Arrays and objects nested in the value; `{}` and `[]` are one level. -/
def depth : Json σ ν → Nat
  | .array items => 1 + depthItems items
  | .object members => 1 + depthMembers members
  | _ => 0
def depthItems : List (Json σ ν) → Nat
  | [] => 0
  | j :: rest => max (depth j) (depthItems rest)
def depthMembers : List (σ × Json σ ν) → Nat
  | [] => 0
  | m :: rest => max (depth m.2) (depthMembers rest)
end

theorem depthItems_le (items : List (Json σ ν)) (k : Nat) :
    depthItems items ≤ k ↔ ∀ j ∈ items, depth j ≤ k := by
  induction items with
  | nil => exact iff_of_true (Nat.zero_le k) (List.forall_mem_nil _)
  | cons j rest ih =>
    rw [List.forall_mem_cons, ← ih]
    exact Nat.max_le

theorem depthMembers_le (members : List (σ × Json σ ν)) (k : Nat) :
    depthMembers members ≤ k ↔ ∀ m ∈ members, depth m.2 ≤ k := by
  induction members with
  | nil => exact iff_of_true (Nat.zero_le k) (List.forall_mem_nil _)
  | cons m rest ih =>
    rw [List.forall_mem_cons, ← ih]
    exact Nat.max_le

theorem depth_array_le {k : Nat} :
    depth (.array items) ≤ k ↔ 1 ≤ k ∧ ∀ j ∈ items, depth j ≤ k - 1 := by
  show 1 + depthItems items ≤ k ↔ _
  rw [← depthItems_le]
  omega

theorem depth_object_le {k : Nat} :
    depth (.object members) ≤ k ↔ 1 ≤ k ∧ ∀ m ∈ members, depth m.2 ≤ k - 1 := by
  show 1 + depthMembers members ≤ k ↔ _
  rw [← depthMembers_le]
  omega

/-! ### Values in a value -/

mutual
/-- The JSON values a value is made of, itself included. -/
def count : Json σ ν → Nat
  | .array items => 1 + countItems items
  | .object members => 1 + countMembers members
  | _ => 1
def countItems : List (Json σ ν) → Nat
  | [] => 0
  | j :: rest => count j + countItems rest
def countMembers : List (σ × Json σ ν) → Nat
  | [] => 0
  | m :: rest => count m.2 + countMembers rest
end

theorem count_pos (j : Json σ ν) : 0 < count j := by
  cases j <;> simp only [count] <;> omega

theorem countItems_eq_sum (items : List (Json σ ν)) : countItems items =
    (items.map fun j => count j).sum := by
  induction items with
  | nil => rfl
  | cons j rest ih =>
    rw [List.map_cons, List.sum_cons, ← ih]
    rfl

theorem countMembers_eq_sum (members : List (σ × Json σ ν)) :
    countMembers members = (members.map fun m => count m.2).sum := by
  induction members with
  | nil => rfl
  | cons m rest ih =>
    rw [List.map_cons, List.sum_cons, ← ih]
    rfl

@[simp] theorem countItems_append (a b : List (Json σ ν)) :
    countItems (a ++ b) = countItems a + countItems b := by
  simp only [countItems_eq_sum, List.map_append, List.sum_append]

@[simp] theorem countItems_reverse (items : List (Json σ ν)) :
    countItems items.reverse = countItems items := by
  rw [countItems_eq_sum, countItems_eq_sum, List.map_reverse, List.sum_reverse]

@[simp] theorem countItems_values (members : List (σ × Json σ ν)) :
    countItems (members.map fun m => m.2) = countMembers members := by
  rw [countItems_eq_sum, countMembers_eq_sum, List.map_map]
  rfl

/-! ### The same value in other machine types -/

mutual
def map (f : σ → σ') (g : ν → ν') : Json σ ν → Json σ' ν'
  | .null => .null
  | .bool b => .bool b
  | .number n => .number (g n)
  | .string s => .string (f s)
  | .array items => .array (mapItems f g items)
  | .object members => .object (mapMembers f g members)
def mapItems (f : σ → σ') (g : ν → ν') : List (Json σ ν) → List (Json σ' ν')
  | [] => []
  | j :: rest => map f g j :: mapItems f g rest
def mapMembers (f : σ → σ') (g : ν → ν') : List (σ × Json σ ν) → List (σ' × Json σ' ν')
  | [] => []
  | m :: rest => (f m.1, map f g m.2) :: mapMembers f g rest
end

theorem mapItems_eq (f : σ → σ') (g : ν → ν') (items : List (Json σ ν)) :
    mapItems f g items = items.map (map f g) := by
  induction items with
  | nil => rfl
  | cons j rest ih =>
    rw [List.map_cons, ← ih]
    rfl

theorem mapMembers_eq (f : σ → σ') (g : ν → ν') (members : List (σ × Json σ ν)) :
    mapMembers f g members = members.map (fun m => (f m.1, map f g m.2)) := by
  induction members with
  | nil => rfl
  | cons m rest ih =>
    rw [List.map_cons, ← ih]
    rfl

theorem map_array (f : σ → σ') (g : ν → ν') (items : List (Json σ ν)) :
    map f g (.array items) = .array (items.map (map f g)) :=
  congrArg Json.array (mapItems_eq f g items)

theorem map_object (f : σ → σ') (g : ν → ν') (members : List (σ × Json σ ν)) :
    map f g (.object members) = .object (members.map fun m => (f m.1, map f g m.2)) :=
  congrArg Json.object (mapMembers_eq f g members)

theorem map_map {σ'' ν'' : Type} (f : σ → σ') (g : ν → ν') (f' : σ' → σ'') (g' : ν' → ν'')
    (j : Json σ ν) : map f' g' (map f g j) = map (f' ∘ f) (g' ∘ g) j := by
  induction j using Json.ind with
  | array items ih =>
    rw [map_array, map_array, map_array, List.map_map]
    exact congrArg _ (List.map_congr_left ih)
  | object members ih =>
    rw [map_object, map_object, map_object, List.map_map]
    refine congrArg _ (List.map_congr_left fun m hm => ?_)
    rw [Function.comp_apply, ih m hm]
    rfl
  | _ => rfl

mutual
theorem depth_map (f : σ → σ') (g : ν → ν') : ∀ j : Json σ ν, depth (map f g j) = depth j
  | .null => rfl
  | .bool _ => rfl
  | .number _ => rfl
  | .string _ => rfl
  | .array items => by rw [map, depth, depth, depthItems_map f g items]
  | .object members => by rw [map, depth, depth, depthMembers_map f g members]
theorem depthItems_map (f : σ → σ') (g : ν → ν') : ∀ items : List (Json σ ν),
    depthItems (mapItems f g items) = depthItems items
  | [] => rfl
  | j :: rest => by
    rw [mapItems, depthItems, depthItems, depth_map f g j, depthItems_map f g rest]
theorem depthMembers_map (f : σ → σ') (g : ν → ν') : ∀ members : List (σ × Json σ ν),
    depthMembers (mapMembers f g members) = depthMembers members
  | [] => rfl
  | m :: rest => by
    rw [mapMembers, depthMembers, depthMembers, depth_map f g m.2, depthMembers_map f g rest]
end

/-- A lookup under a key spelled otherwise. -/
theorem get?_map [DecidableEq σ] [DecidableEq σ'] {f : σ → σ'} (hf : Function.Injective f)
    (g : Json σ ν → Json σ' ν') (members : List (σ × Json σ ν)) (key : σ) :
    get? (members.map fun m => (f m.1, g m.2)) (f key) = (get? members key).map g := by
  induction members with
  | nil => rfl
  | cons m rest ih =>
    rw [List.map_cons, get?_cons, get?_cons, ih]
    by_cases h : m.1 = key
    · simp [h]
    · simp [h, hf.eq_iff]

/-! ### Lengths -/

mutual
/-- Every array of the value has fewer than `k` items. -/
def Short (k : Nat) : Json σ ν → Prop
  | .array items => items.length < k ∧ ShortItems k items
  | .object members => ShortMembers k members
  | _ => True
def ShortItems (k : Nat) : List (Json σ ν) → Prop
  | [] => True
  | j :: rest => Short k j ∧ ShortItems k rest
def ShortMembers (k : Nat) : List (σ × Json σ ν) → Prop
  | [] => True
  | m :: rest => Short k m.2 ∧ ShortMembers k rest
end

theorem short_array {k : Nat} :
    Short k (.array items) ↔ items.length < k ∧ ∀ j ∈ items, Short k j := by
  have hitems : ∀ items : List (Json σ ν), ShortItems k items ↔ ∀ j ∈ items, Short k j := by
    intro items
    induction items with
    | nil => exact iff_of_true trivial (List.forall_mem_nil _)
    | cons j rest ih =>
      rw [List.forall_mem_cons, ← ih]
      rfl
  exact and_congr_right fun _ => hitems items

theorem short_object {k : Nat} :
    Short k (.object members) ↔ ∀ m ∈ members, Short k m.2 := by
  have hmembers : ∀ members : List (σ × Json σ ν),
      ShortMembers k members ↔ ∀ m ∈ members, Short k m.2 := by
    intro members
    induction members with
    | nil => exact iff_of_true trivial (List.forall_mem_nil _)
    | cons m rest ih =>
      rw [List.forall_mem_cons, ← ih]
      rfl
  exact hmembers members

/-! ### Leaves -/

mutual
/-- Every string and key of the value satisfies `P`, every number `Q`. -/
def All (P : σ → Prop) (Q : ν → Prop) : Json σ ν → Prop
  | .number n => Q n
  | .string s => P s
  | .array items => AllItems P Q items
  | .object members => AllMembers P Q members
  | _ => True
def AllItems (P : σ → Prop) (Q : ν → Prop) : List (Json σ ν) → Prop
  | [] => True
  | j :: rest => All P Q j ∧ AllItems P Q rest
def AllMembers (P : σ → Prop) (Q : ν → Prop) : List (σ × Json σ ν) → Prop
  | [] => True
  | m :: rest => (P m.1 ∧ All P Q m.2) ∧ AllMembers P Q rest
end

section All
variable {P : σ → Prop} {Q : ν → Prop}

theorem all_array {items : List (Json σ ν)} : All P Q (.array items) ↔ ∀ j ∈ items, All P Q j := by
  have hitems : ∀ items : List (Json σ ν), AllItems P Q items ↔ ∀ j ∈ items, All P Q j := by
    intro items
    induction items with
    | nil => exact iff_of_true trivial (List.forall_mem_nil _)
    | cons j rest ih =>
      rw [List.forall_mem_cons, ← ih]
      rfl
  exact hitems items

theorem all_object {members : List (σ × Json σ ν)} :
    All P Q (.object members) ↔ ∀ m ∈ members, P m.1 ∧ All P Q m.2 := by
  have hmembers : ∀ members : List (σ × Json σ ν),
      AllMembers P Q members ↔ ∀ m ∈ members, P m.1 ∧ All P Q m.2 := by
    intro members
    induction members with
    | nil => exact iff_of_true trivial (List.forall_mem_nil _)
    | cons m rest ih =>
      rw [List.forall_mem_cons, ← ih]
      rfl
  exact hmembers members

end All

/-! ### Equality -/

mutual
def decEq [DecidableEq σ] [DecidableEq ν] : (a b : Json σ ν) → Decidable (a = b)
  | .null, .null => isTrue rfl
  | .bool a, .bool b => decidable_of_iff (a = b) (by simp)
  | .number a, .number b => decidable_of_iff (a = b) (by simp)
  | .string a, .string b => decidable_of_iff (a = b) (by simp)
  | .array a, .array b => @decidable_of_iff _ (a = b) (by simp) (decEqItems a b)
  | .object a, .object b => @decidable_of_iff _ (a = b) (by simp) (decEqMembers a b)
  | .null, .bool _ | .null, .number _ | .null, .string _ | .null, .array _ | .null, .object _
  | .bool _, .null | .bool _, .number _ | .bool _, .string _ | .bool _, .array _ | .bool _, .object _
  | .number _, .null | .number _, .bool _ | .number _, .string _ | .number _, .array _ | .number _, .object _
  | .string _, .null | .string _, .bool _ | .string _, .number _ | .string _, .array _ | .string _, .object _
  | .array _, .null | .array _, .bool _ | .array _, .number _ | .array _, .string _ | .array _, .object _
  | .object _, .null | .object _, .bool _ | .object _, .number _ | .object _, .string _ | .object _, .array _ =>
    isFalse (by simp)
def decEqItems [DecidableEq σ] [DecidableEq ν] : (a b : List (Json σ ν)) → Decidable (a = b)
  | [], [] => isTrue rfl
  | [], _ :: _ | _ :: _, [] => isFalse (by simp)
  | a :: as, b :: bs =>
    @decidable_of_iff _ (a = b ∧ as = bs) (by simp) (@instDecidableAnd _ _ (decEq a b) (decEqItems as bs))
def decEqMembers [DecidableEq σ] [DecidableEq ν] : (a b : List (σ × Json σ ν)) → Decidable (a = b)
  | [], [] => isTrue rfl
  | [], _ :: _ | _ :: _, [] => isFalse (by simp)
  | a :: as, b :: bs =>
    @decidable_of_iff _ (a.1 = b.1 ∧ a.2 = b.2 ∧ as = bs) (by simp [Prod.ext_iff, and_assoc])
      (@instDecidableAnd _ _ inferInstance (@instDecidableAnd _ _ (decEq a.2 b.2) (decEqMembers as bs)))
end

instance [DecidableEq σ] [DecidableEq ν] : DecidableEq (Json σ ν) := decEq

end Json
end Iii
