import Mathlib.Order.Lattice
import Iii.Lib.Assoc
import Iii.Lib.Checks

/-! Maps that are kept in the order of their keys (a `BTreeMap`).

The order is part of the structure, so a map is determined by what its keys look up, and two
maps built in different orders are equal as soon as they agree on every key. -/
namespace Iii.Lib

structure SortedMap (κ α : Type) [LinearOrder κ] where
  entries : List (κ × α)
  sorted : (entries.map (·.1)).Pairwise (· < ·)
deriving DecidableEq

namespace SortedMap
variable {κ α β : Type} [LinearOrder κ]

def empty : SortedMap κ α := ⟨[], .nil⟩

def get? (m : SortedMap κ α) (key : κ) : Option α := Assoc.get? m.entries key

def keys (m : SortedMap κ α) : List κ := m.entries.map (·.1)

/-- The value of `key` is replaced where it stands, or added in its place. -/
def insertEntry (key : κ) (v : α) : List (κ × α) → List (κ × α)
  | [] => [(key, v)]
  | e :: rest =>
    if key < e.1 then (key, v) :: e :: rest
    else if key = e.1 then (key, v) :: rest
    else e :: insertEntry key v rest

variable {l : List (κ × α)}

theorem mem_insertEntry {key : κ} {v : α} {e : κ × α} (h : e ∈ insertEntry key v l) : e = (key, v) ∨ e ∈ l := by
  induction l with
  | nil => exact .inl (List.mem_singleton.mp h)
  | cons first rest ih =>
    rw [insertEntry] at h
    split at h
    · exact List.mem_cons.mp h
    · split at h
      · exact (List.mem_cons.mp h).imp_right (List.mem_cons_of_mem _)
      · rcases List.mem_cons.mp h with rfl | h
        · exact .inr List.mem_cons_self
        · exact (ih h).imp_right (List.mem_cons_of_mem _)

theorem mem_keys_insertEntry (key : κ) (v : α) (l : List (κ × α)) {k : κ}
    (h : k ∈ (insertEntry key v l).map (·.1)) : k = key ∨ k ∈ l.map (·.1) := by
  obtain ⟨e, he, rfl⟩ := List.mem_map.mp h
  exact (mem_insertEntry he).imp (congrArg Prod.fst) List.mem_map_of_mem

theorem sorted_insertEntry (key : κ) (v : α) (h : (l.map (·.1)).Pairwise (· < ·)) :
    ((insertEntry key v l).map (·.1)).Pairwise (· < ·) := by
  induction l with
  | nil => exact List.pairwise_singleton _ _
  | cons e rest ih =>
    obtain ⟨hfirst, hrest⟩ := List.pairwise_cons.mp h
    rw [insertEntry]
    split
    · rename_i hlt
      refine List.pairwise_cons.mpr ⟨?_, h⟩
      intro k hk
      rcases List.mem_cons.mp hk with rfl | hk
      · exact hlt
      · exact hlt.trans (hfirst k hk)
    · split
      · rename_i heq
        refine List.pairwise_cons.mpr ⟨?_, hrest⟩
        intro k hk
        show key < k
        rw [heq]
        exact hfirst k hk
      · rename_i hlt hne
        refine List.pairwise_cons.mpr ⟨?_, ih hrest⟩
        intro k hk
        rcases mem_keys_insertEntry key v rest hk with rfl | hk
        · exact lt_of_le_of_ne (not_lt.mp hlt) (Ne.symm hne)
        · exact hfirst k hk

theorem get?_insertEntry (key : κ) (v : α) (h : (l.map (·.1)).Pairwise (· < ·)) (k : κ) :
    Assoc.get? (insertEntry key v l) k = if key = k then some v else Assoc.get? l k := by
  induction l with
  | nil => rw [insertEntry, Assoc.get?_cons]
  | cons e rest ih =>
    obtain ⟨-, hrest⟩ := List.pairwise_cons.mp h
    rw [insertEntry]
    split
    · rw [Assoc.get?_cons]
    · split
      · rename_i heq
        rw [Assoc.get?_cons, Assoc.get?_cons, ← heq]
        by_cases hk : key = k <;> simp [hk]
      · rename_i hne
        rw [Assoc.get?_cons, Assoc.get?_cons, ih hrest]
        by_cases hk : key = k
        · rw [if_pos hk, if_pos hk, if_neg (fun he => hne (hk.trans he.symm))]
        · rw [if_neg hk, if_neg hk]

def insert (m : SortedMap κ α) (key : κ) (v : α) : SortedMap κ α :=
  ⟨insertEntry key v m.entries, sorted_insertEntry key v m.sorted⟩

/-- The entries that are kept, with new values. -/
def filterMap (f : κ → α → Option β) (m : SortedMap κ α) : SortedMap κ β where
  entries := m.entries.filterMap fun e => (f e.1 e.2).map (e.1, ·)
  sorted := by
    have hsub : ((m.entries.filterMap fun e => (f e.1 e.2).map (e.1, ·)).map (·.1)).Sublist
        (m.entries.map (·.1)) := by
      induction m.entries with
      | nil => exact List.Sublist.refl _
      | cons e rest ih =>
        rw [List.filterMap_cons]
        cases f e.1 e.2 with
        | none => exact ih.cons _
        | some v => exact ih.cons_cons _
    exact m.sorted.sublist hsub

def filter (p : κ → α → Bool) (m : SortedMap κ α) : SortedMap κ α :=
  m.filterMap fun k v => if p k v then some v else none

def map (f : α → β) (m : SortedMap κ α) : SortedMap κ β := m.filterMap fun _ v => some (f v)

def erase (m : SortedMap κ α) (key : κ) : SortedMap κ α := m.filter fun k _ => k ≠ key

/-- `collect`: of two entries with one key the later is kept. -/
def ofList (l : List (κ × α)) : SortedMap κ α := l.foldl (fun m e => m.insert e.1 e.2) empty

/-! ### What a key looks up -/

variable {m m' : SortedMap κ α} {key k : κ} {v : α}

theorem distinct (m : SortedMap κ α) : Assoc.Distinct m.entries := m.sorted.imp ne_of_lt

theorem mem_entries_iff : (k, v) ∈ m.entries ↔ m.get? k = some v :=
  ⟨fun h => Assoc.get?_of_mem m.distinct h, Assoc.mem_of_get?⟩

theorem mem_keys_iff : k ∈ m.keys ↔ (m.get? k).isSome := by
  rw [keys, Option.isSome_iff_ne_none, ne_eq, get?, Assoc.get?_eq_none_iff, not_not]

@[simp] theorem get?_empty : (empty : SortedMap κ α).get? k = none := rfl

@[simp] theorem get?_insert : (m.insert key v).get? k = if key = k then some v else m.get? k :=
  get?_insertEntry key v m.sorted k

theorem get?_filterMap (f : κ → α → Option β) : (m.filterMap f).get? k = (m.get? k).bind (f k) := by
  have hlist : ∀ l : List (κ × α), Assoc.Distinct l →
      Assoc.get? (l.filterMap fun e => (f e.1 e.2).map (e.1, ·)) k = (Assoc.get? l k).bind (f k) := by
    intro l hl
    induction l with
    | nil => rfl
    | cons e rest ih =>
      obtain ⟨hfresh, hrest⟩ := List.nodup_cons.mp hl
      rw [List.filterMap_cons, Assoc.get?_cons]
      by_cases hk : e.1 = k
      · have hnone : Assoc.get? rest k = none := by
          rw [Assoc.get?_eq_none_iff, ← hk]
          exact hfresh
        rw [if_pos hk, Option.bind_some, ← hk]
        cases f e.1 e.2 with
        | none =>
          rw [hk]
          exact (ih hrest).trans (by rw [hnone]; rfl)
        | some v => exact (Assoc.get?_cons _ _ _).trans (if_pos rfl)
      · rw [if_neg hk, ← ih hrest]
        cases f e.1 e.2 with
        | none => rfl
        | some v => exact (Assoc.get?_cons _ _ _).trans (if_neg hk)
  exact hlist m.entries m.distinct

@[simp] theorem get?_filter (p : κ → α → Bool) : (m.filter p).get? k = (m.get? k).filter (p k) := by
  rw [filter, get?_filterMap]
  cases m.get? k with
  | none => rfl
  | some v => rfl

@[simp] theorem get?_map (f : α → β) : (m.map f).get? k = (m.get? k).map f := by
  rw [map, get?_filterMap]
  cases m.get? k with
  | none => rfl
  | some v => rfl

@[simp] theorem get?_erase : (m.erase key).get? k = if key = k then none else m.get? k := by
  rw [erase, get?_filter]
  cases m.get? k with
  | none => simp
  | some v => by_cases h : key = k <;> simp [h, Option.filter, Ne.symm]

/-- Of a list with distinct keys the map looks up what the list does. -/
theorem get?_ofList (hl : Assoc.Distinct l) : (ofList l).get? k = Assoc.get? l k := by
  have hfold : ∀ (l : List (κ × α)) (m : SortedMap κ α), Assoc.Distinct l →
      (l.foldl (fun m e => m.insert e.1 e.2) m).get? k = (Assoc.get? l k).or (m.get? k) := by
    intro l
    induction l with
    | nil => exact fun m _ => rfl
    | cons e rest ih =>
      intro m hl
      obtain ⟨hfresh, hrest⟩ := List.nodup_cons.mp hl
      rw [List.foldl_cons, ih _ hrest, get?_insert, Assoc.get?_cons]
      by_cases hk : e.1 = k
      · have hnone : Assoc.get? rest k = none := by
          rw [Assoc.get?_eq_none_iff, ← hk]
          exact hfresh
        rw [if_pos hk, if_pos hk, hnone]
        rfl
      · rw [if_neg hk, if_neg hk]
  rw [ofList, hfold l empty hl, get?_empty, Option.or_none]

/-- A map is what its keys look up. -/
theorem ext (h : ∀ k, m.get? k = m'.get? k) : m = m' := by
  have hmem : ∀ e, e ∈ m.entries ↔ e ∈ m'.entries := fun e => by
    rw [show e = (e.1, e.2) from rfl, mem_entries_iff, mem_entries_iff, h]
  have hsorted : ∀ m : SortedMap κ α, m.entries.Pairwise fun a b => a.1 < b.1 := fun m =>
    List.pairwise_map.mp m.sorted
  have hnodup : ∀ m : SortedMap κ α, m.entries.Nodup := fun m => (hsorted m).imp fun hlt heq =>
    absurd (congrArg Prod.fst heq) (ne_of_lt hlt)
  have hentries : m.entries = m'.entries := by
    apply ((List.perm_ext_iff_of_nodup (hnodup m) (hnodup m')).mpr hmem).eq_of_pairwise _ (hsorted m) (hsorted m')
    intro a b _ _ hab hba
    exact absurd hab hba.not_gt
  cases m
  cases m'
  cases hentries
  rfl

theorem insert_comm {key' : κ} (h : key ≠ key') {v' : α} :
    (m.insert key v).insert key' v' = (m.insert key' v').insert key v := by
  apply ext
  intro k
  rw [get?_insert, get?_insert, get?_insert, get?_insert]
  by_cases hk : key = k
  · rw [if_neg (fun hk' => h (hk.trans hk'.symm)), if_pos hk, if_pos hk]
  · rw [if_neg hk, if_neg hk]

theorem insert_insert {v' : α} : (m.insert key v).insert key v' = m.insert key v' := by
  apply ext
  intro k
  rw [get?_insert, get?_insert, get?_insert]
  by_cases hk : key = k
  · rw [if_pos hk, if_pos hk]
  · rw [if_neg hk, if_neg hk, if_neg hk]

/-! ### Maps that a list determines, whatever its order -/

/-- No key stands with two values. -/
def Functional (l : List (κ × α)) : Prop := ∀ k v v', (k, v) ∈ l → (k, v') ∈ l → v = v'

theorem get?_ofList_iff (hl : Functional l) : (ofList l).get? k = some v ↔ (k, v) ∈ l := by
  have hfold : ∀ (l : List (κ × α)) (m : SortedMap κ α), Functional l →
      ((l.foldl (fun m e => m.insert e.1 e.2) m).get? k = some v ↔
        (k, v) ∈ l ∨ k ∉ l.map (·.1) ∧ m.get? k = some v) := by
    intro l
    induction l with
    | nil => intro m _; simp
    | cons e rest ih =>
      intro m hl
      have hrest : Functional rest := fun k v v' h h' =>
        hl k v v' (List.mem_cons_of_mem _ h) (List.mem_cons_of_mem _ h')
      rw [List.foldl_cons, ih _ hrest, get?_insert]
      constructor
      · intro h
        rcases h with hmem | ⟨hfresh, hget⟩
        · exact .inl (List.mem_cons_of_mem _ hmem)
        · split at hget
          · rename_i heq
            cases hget
            cases heq
            exact .inl List.mem_cons_self
          · rename_i hne
            refine .inr ⟨?_, hget⟩
            rw [List.map_cons, List.mem_cons]
            exact not_or.mpr ⟨Ne.symm hne, hfresh⟩
      · intro h
        rcases h with hmem | ⟨hfresh, hget⟩
        · rcases List.mem_cons.mp hmem with rfl | hmem
          · by_cases hin : k ∈ rest.map (·.1)
            · obtain ⟨⟨k', v'⟩, hmem', rfl⟩ := List.mem_map.mp hin
              rw [hl k' v v' List.mem_cons_self (List.mem_cons_of_mem _ hmem')]
              exact .inl hmem'
            · exact .inr ⟨hin, if_pos rfl⟩
          · exact .inl hmem
        · rw [List.map_cons, List.mem_cons, not_or] at hfresh
          exact .inr ⟨hfresh.2, (if_neg (Ne.symm hfresh.1)).trans hget⟩
  rw [ofList, hfold l empty hl]
  constructor
  · intro h
    exact h.resolve_right fun h => nomatch h.2
  · exact fun h => .inl h

/-- Lists with the same members make the same map. -/
theorem ofList_congr {l' : List (κ × α)} (hl : Functional l) (h : ∀ e, e ∈ l ↔ e ∈ l') :
    ofList l = ofList l' := by
  have hl' : Functional l' := fun k v v' hv hv' => hl k v v' ((h _).mpr hv) ((h _).mpr hv')
  apply ext
  intro k
  apply Option.ext
  intro v
  rw [get?_ofList_iff hl, get?_ofList_iff hl', h]

theorem functional_of_distinct (hl : Assoc.Distinct l) : Functional l := by
  intro k v v' h h'
  have heq : some v = some v' := (Assoc.get?_of_mem hl h).symm.trans (Assoc.get?_of_mem hl h')
  exact Option.some.inj heq

/-- Every value is replaced by what is computed from it; the first error stops. -/
def traverse {ε : Type} (f : κ → α → Except ε β) (m : SortedMap κ α) : Except ε (SortedMap κ β) := do
  let entries ← m.entries.mapM fun e => (f e.1 e.2).map (e.1, ·)
  return ofList entries

theorem traverse_eq_ok {ε : Type} {f : κ → α → Except ε β} {n : SortedMap κ β} (h : m.traverse f = .ok n) :
    ∀ k, (m.get? k = none ∧ n.get? k = none) ∨
      ∃ v w, m.get? k = some v ∧ f k v = .ok w ∧ n.get? k = some w := by
  obtain ⟨entries, hentries, hn⟩ := bind_eq_ok.mp h
  cases hn
  have hof : ∀ (e : κ × α) b, (f e.1 e.2).map (e.1, ·) = .ok b → ∃ w, f e.1 e.2 = .ok w ∧ b = (e.1, w) := by
    intro e b hb
    cases hf : f e.1 e.2 with
    | error _ => rw [hf] at hb; cases hb
    | ok w => rw [hf] at hb; exact ⟨w, rfl, (Except.ok.inj hb).symm⟩
  have hkeys : entries.map (·.1) = m.entries.map (·.1) := mapM_map_eq hentries fun e b hb => by
    obtain ⟨w, -, rfl⟩ := hof e b hb
    rfl
  have hdistinct : Assoc.Distinct entries := by
    rw [Assoc.Distinct, hkeys]
    exact m.distinct
  intro k
  rw [get?_ofList hdistinct]
  cases hget : m.get? k with
  | none =>
    refine .inl ⟨rfl, ?_⟩
    rw [Assoc.get?_eq_none_iff, hkeys, ← Assoc.get?_eq_none_iff]
    exact hget
  | some v =>
    obtain ⟨b, hb, hfb⟩ := mapM_mem hentries (mem_entries_iff.mpr hget)
    obtain ⟨w, hw, rfl⟩ := hof (k, v) b hfb
    exact .inr ⟨v, w, rfl, hw, Assoc.get?_of_mem hdistinct hb⟩

theorem exists_traverse {ε : Type} {f : κ → α → Except ε β} (h : ∀ k v, m.get? k = some v → ∃ w, f k v = .ok w) :
    ∃ n, m.traverse f = .ok n := by
  obtain ⟨entries, hentries⟩ : ∃ entries, m.entries.mapM (fun e => (f e.1 e.2).map (e.1, ·)) = .ok entries := by
    apply exists_mapM
    intro e he
    obtain ⟨w, hw⟩ := h e.1 e.2 (mem_entries_iff.mp he)
    exact ⟨(e.1, w), by rw [hw]; rfl⟩
  exact ⟨ofList entries, bind_eq_ok.mpr ⟨entries, hentries, rfl⟩⟩

end SortedMap

end Iii.Lib
