import Mathlib.Data.List.Nodup

/-! Association lists with distinct keys: the finite maps behind JSON objects, Lua
tables and the stores. The order of the entries carries no meaning; every result is
about what a key looks up. -/
namespace Iii.Lib.Assoc
variable {κ α β : Type} [DecidableEq κ]

def get? (l : List (κ × α)) (key : κ) : Option α := (l.find? (fun m => m.1 = key)).map (·.2)

/-- The value of `key` is replaced where it stands, or added at the end. -/
def insert : List (κ × α) → κ → α → List (κ × α)
  | [], key, v => [(key, v)]
  | m :: rest, key, v => if m.1 = key then (key, v) :: rest else m :: insert rest key v

def erase (l : List (κ × α)) (key : κ) : List (κ × α) := l.filter fun m => m.1 ≠ key

/-- The entries of `new` over those of `l`. -/
def insertAll (l new : List (κ × α)) : List (κ × α) := new.foldl (fun acc m => insert acc m.1 m.2) l

def Distinct (l : List (κ × α)) : Prop := (l.map (·.1)).Nodup

@[simp] theorem get?_nil (key : κ) : get? ([] : List (κ × α)) key = none := rfl

theorem get?_cons (m : κ × α) (rest : List (κ × α)) (key : κ) :
    get? (m :: rest) key = if m.1 = key then some m.2 else get? rest key := by
  unfold get?
  rw [List.find?_cons]
  by_cases h : m.1 = key <;> simp [h]

variable {l : List (κ × α)} {key : κ}

theorem mem_of_get? {v : α} (h : get? l key = some v) : (key, v) ∈ l := by
  unfold get? at h
  obtain ⟨m, hm, rfl⟩ := Option.map_eq_some_iff.mp h
  have hkey : m.1 = key := by simpa using List.find?_some hm
  have hmem := List.mem_of_find?_eq_some hm
  rw [← hkey]
  exact hmem

theorem get?_eq_none_iff : get? l key = none ↔ key ∉ l.map (·.1) := by
  induction l with
  | nil => simp
  | cons m rest ih =>
    rw [get?_cons, List.map_cons, List.mem_cons]
    by_cases h : m.1 = key
    · simp [h]
    · simp [h, ih, Ne.symm h]

/-- Among distinct keys an entry is what its key looks up. -/
theorem get?_of_mem (hl : Distinct l) {m : κ × α} (hm : m ∈ l) :
    get? l m.1 = some m.2 := by
  induction l with
  | nil => cases hm
  | cons a rest ih =>
    obtain ⟨hfresh, hrest⟩ := List.nodup_cons.mp hl
    rw [get?_cons]
    rcases List.mem_cons.mp hm with rfl | hm
    · rw [if_pos rfl]
    · rw [if_neg, ih hrest hm]
      intro h
      apply hfresh
      show a.1 ∈ rest.map (·.1)
      rw [h]
      exact List.mem_map_of_mem hm

theorem get?_map (f : α → β) (l : List (κ × α)) (key : κ) :
    get? (l.map fun m => (m.1, f m.2)) key = (get? l key).map f := by
  induction l with
  | nil => rfl
  | cons m rest ih =>
    rw [List.map_cons, get?_cons, get?_cons, ih]
    by_cases h : m.1 = key <;> simp [h]

/-! ### Updates -/

theorem get?_insert (l : List (κ × α)) (key key' : κ) (v : α) :
    get? (insert l key v) key' = if key = key' then some v else get? l key' := by
  induction l with
  | nil => rw [insert, get?_cons]
  | cons m rest ih =>
    rw [insert]
    by_cases hm : m.1 = key
    · rw [if_pos hm, get?_cons, get?_cons, hm]
      by_cases h : key = key' <;> simp [h]
    · rw [if_neg hm, get?_cons, get?_cons, ih]
      by_cases h : key = key'
      · rw [if_pos h, if_pos h, if_neg (fun h' => hm (h'.trans h.symm))]
      · rw [if_neg h, if_neg h]

theorem get?_erase (l : List (κ × α)) (key key' : κ) :
    get? (erase l key) key' = if key = key' then none else get? l key' := by
  induction l with
  | nil => simp [erase]
  | cons m rest ih =>
    unfold erase at ih ⊢
    rw [List.filter_cons]
    by_cases hm : m.1 = key
    · rw [if_neg (by simp [hm]), ih, get?_cons, hm]
      by_cases h : key = key' <;> simp [h]
    · rw [if_pos (by simp [hm]), get?_cons, get?_cons, ih]
      by_cases h : key = key'
      · rw [if_pos h, if_pos h, if_neg (fun h' => hm (h'.trans h.symm))]
      · rw [if_neg h, if_neg h]

/-- What a merge looks up: the new entries first. -/
theorem get?_insertAll (l new : List (κ × α)) (hnew : Distinct new) (key : κ) :
    get? (insertAll l new) key = (get? new key).or (get? l key) := by
  induction new generalizing l with
  | nil => rfl
  | cons m rest ih =>
    obtain ⟨hfresh, hrest⟩ := List.nodup_cons.mp hnew
    have hstep : insertAll l (m :: rest) = insertAll (insert l m.1 m.2) rest := rfl
    rw [hstep, ih _ hrest, get?_insert, get?_cons]
    by_cases h : m.1 = key
    · have hnone : get? rest key = none := by
        rw [get?_eq_none_iff, ← h]
        exact hfresh
      rw [if_pos h, if_pos h, hnone]
      rfl
    · rw [if_neg h, if_neg h]

theorem keys_insert (l : List (κ × α)) (key : κ) (v : α) :
    (insert l key v).map (·.1) = if key ∈ l.map (·.1) then l.map (·.1) else l.map (·.1) ++ [key] := by
  induction l with
  | nil => simp [insert]
  | cons m rest ih =>
    rw [insert]
    by_cases hm : m.1 = key
    · simp [hm]
    · rw [if_neg hm, List.map_cons, List.map_cons, ih]
      by_cases hmem : key ∈ rest.map (·.1)
      · rw [if_pos hmem, if_pos (List.mem_cons_of_mem _ hmem)]
      · rw [if_neg hmem, if_neg, List.cons_append]
        simp [hmem, Ne.symm hm]

theorem distinct_insert (hl : Distinct l) (key : κ) (v : α) :
    Distinct (insert l key v) := by
  unfold Distinct
  rw [keys_insert]
  split
  · exact hl
  · rename_i hfresh
    exact List.nodup_append.mpr ⟨hl, List.nodup_singleton _, by
      intro a ha b hb hab
      rw [List.mem_singleton.mp hb] at hab
      exact hfresh (hab ▸ ha)⟩

theorem distinct_erase (hl : Distinct l) (key : κ) : Distinct (erase l key) :=
  (List.filter_sublist.map _).nodup hl

theorem insert_insert (l : List (κ × α)) (key : κ) (v v' : α) : insert (insert l key v) key v' = insert l key v' := by
  induction l with
  | nil => simp [insert]
  | cons m rest ih =>
    by_cases h : m.1 = key
    · simp [insert, h]
    · simp [insert, h, ih]

theorem insert_of_absent (h : get? l key = none) (v : α) : insert l key v = l ++ [(key, v)] := by
  induction l with
  | nil => rfl
  | cons m rest ih =>
    rw [get?_cons] at h
    split at h
    · cases h
    · rename_i hm
      rw [insert, if_neg hm, ih h, List.cons_append]

/-- An entry, and the rest. -/
theorem perm_erase (hl : Distinct l) {v : α} (h : get? l key = some v) :
    l.Perm ((key, v) :: erase l key) := by
  induction l with
  | nil => cases h
  | cons m rest ih =>
    obtain ⟨hfresh, hrest⟩ := List.nodup_cons.mp hl
    rw [get?_cons] at h
    unfold erase at ih ⊢
    split at h
    · rename_i hm
      cases h
      have habsent : rest.filter (fun m => m.1 ≠ key) = rest := by
        refine List.filter_eq_self.mpr fun a ha => decide_eq_true fun heq => hfresh ?_
        exact List.mem_map.mpr ⟨a, ha, heq.trans hm.symm⟩
      rw [List.filter_cons_of_neg (by simp [hm]), habsent, ← hm]
    · rename_i hm
      rw [List.filter_cons_of_pos (by simp [hm])]
      exact ((ih hrest h).cons m).trans (List.Perm.swap _ _ _)

theorem distinct_insertAll (hl : Distinct l) (new : List (κ × α)) :
    Distinct (insertAll l new) := by
  induction new generalizing l with
  | nil => exact hl
  | cons m rest ih => exact ih (distinct_insert hl m.1 m.2)

theorem mem_insert {v : α} {m : κ × α} (hm : m ∈ insert l key v) :
    m ∈ l ∨ m = (key, v) := by
  induction l with
  | nil => exact .inr (List.mem_singleton.mp hm)
  | cons a rest ih =>
    rw [insert] at hm
    split at hm
    · rcases List.mem_cons.mp hm with rfl | hm
      · exact .inr rfl
      · exact .inl (List.mem_cons_of_mem _ hm)
    · rcases List.mem_cons.mp hm with rfl | hm
      · exact .inl (List.mem_cons_self ..)
      · rcases ih hm with hm | rfl
        · exact .inl (List.mem_cons_of_mem _ hm)
        · exact .inr rfl

theorem mem_insertAll {new : List (κ × α)} {m : κ × α} (hm : m ∈ insertAll l new) : m ∈ l ∨ m ∈ new := by
  induction new generalizing l with
  | nil => exact .inl hm
  | cons a rest ih =>
    rcases ih (l := insert l a.1 a.2) hm with hm | hm
    · rcases mem_insert hm with hm | rfl
      · exact .inl hm
      · exact .inr (List.mem_cons_self ..)
    · exact .inr (List.mem_cons_of_mem _ hm)

theorem insert_ne_nil (l : List (κ × α)) (key : κ) (v : α) : insert l key v ≠ [] := by
  cases l with
  | nil => simp [insert]
  | cons m rest =>
    rw [insert]
    split <;> simp

theorem insertAll_ne_nil {new : List (κ × α)} (h : new ≠ []) : insertAll l new ≠ [] := by
  have hgrow : ∀ (new l : List (κ × α)), l ≠ [] → insertAll l new ≠ [] := by
    intro new
    induction new with
    | nil => exact fun l hl => hl
    | cons m rest ih => exact fun l _ => ih _ (insert_ne_nil l m.1 m.2)
  cases new with
  | nil => exact absurd rfl h
  | cons m rest => exact hgrow rest _ (insert_ne_nil l m.1 m.2)

/-! ### The values of some keys -/

theorem filterMap_get?_insert (l : List (κ × α)) {keys : List κ} (h : key ∉ keys) (v : α) :
    keys.filterMap (fun k => get? (insert l key v) k) = keys.filterMap fun k => get? l k := by
  apply List.filterMap_congr
  intro k hk
  have hne : key ≠ k := fun heq => h (heq ▸ hk)
  rw [get?_insert, if_neg hne]

theorem filterMap_get?_erase {keys : List κ} {v : α} (hkeys : keys.Nodup) (hmem : key ∈ keys)
    (h : get? l key = some v) :
    (keys.filterMap fun k => get? l k).Perm (v :: keys.filterMap fun k => get? (erase l key) k) := by
  have hperm := List.perm_cons_erase hmem
  have hrest : (keys.erase key).filterMap (fun k => get? (erase l key) k) =
      (keys.erase key).filterMap fun k => get? l k := by
    apply List.filterMap_congr
    intro k hk
    have hne : key ≠ k := fun heq => hkeys.not_mem_erase (heq ▸ hk)
    rw [get?_erase, if_neg hne]
  have hold := hperm.filterMap fun k => get? l k
  have hnew := hperm.filterMap fun k => get? (erase l key) k
  rw [List.filterMap_cons, h] at hold
  rw [List.filterMap_cons, get?_erase, if_pos rfl, hrest] at hnew
  exact hold.trans (hnew.symm.cons v)

/-! ### Lists as values -/

theorem erase_eq_self (h : get? l key = none) : erase l key = l := by
  rw [get?_eq_none_iff] at h
  apply List.filter_eq_self.mpr
  intro m hm
  have hne : m.1 ≠ key := fun heq => h (heq ▸ List.mem_map_of_mem hm)
  simpa using hne

/-- The entries of a map whose values are lists, `key`'s first. -/
theorem flatMap_erase {l : List (κ × List α)} (hl : Distinct l) (key : κ) :
    (((get? l key).getD []) ++ (erase l key).flatMap (·.2)).Perm (l.flatMap (·.2)) := by
  induction l with
  | nil => simp [erase]
  | cons m rest ih =>
    obtain ⟨hfresh, hrest⟩ := List.nodup_cons.mp hl
    by_cases hm : m.1 = key
    · have hnone : get? rest key = none := by rwa [get?_eq_none_iff, ← hm]
      have herase : erase (m :: rest) key = rest := by
        have heq := erase_eq_self hnone
        unfold erase at heq ⊢
        rw [List.filter_cons, if_neg (by simp [hm]), heq]
      rw [herase, get?_cons, if_pos hm]
      exact List.Perm.refl _
    · have herase : erase (m :: rest) key = m :: erase rest key := by
        unfold erase
        rw [List.filter_cons, if_pos (by simpa using hm)]
      rw [herase, get?_cons, if_neg hm, List.flatMap_cons, List.flatMap_cons, ← List.append_assoc]
      refine (List.perm_append_comm.append_right _).trans ?_
      rw [List.append_assoc]
      exact (ih hrest).append_left _

theorem flatMap_insert (l : List (κ × List α)) (key : κ) (v : List α) :
    (((get? l key).getD []) ++ (insert l key v).flatMap (·.2)).Perm (v ++ l.flatMap (·.2)) := by
  induction l with
  | nil => simp [insert]
  | cons m rest ih =>
    rw [insert, get?_cons]
    by_cases hm : m.1 = key
    · rw [if_pos hm, if_pos hm, List.flatMap_cons, List.flatMap_cons]
      show (m.2 ++ (v ++ _)).Perm (v ++ (m.2 ++ _))
      rw [← List.append_assoc, ← List.append_assoc]
      exact List.perm_append_comm.append_right _
    · rw [if_neg hm, if_neg hm, List.flatMap_cons, List.flatMap_cons, ← List.append_assoc, ← List.append_assoc]
      refine (List.perm_append_comm.append_right _).trans ?_
      refine List.Perm.trans ?_ (List.perm_append_comm.append_right _)
      rw [List.append_assoc, List.append_assoc]
      exact ih.append_left _

theorem mem_flatMap_of_get? {l : List (κ × List α)} {v : List α} (h : get? l key = some v) {x : α} (hx : x ∈ v) :
    x ∈ l.flatMap (·.2) :=
  List.mem_flatMap.mpr ⟨_, mem_of_get? h, hx⟩

end Iii.Lib.Assoc
