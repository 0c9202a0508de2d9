import Iii.Compose.Kahn
import Iii.Lib.Forest

/-! An order in waves and as a tree (`iii-compose`, `dag.rs`).

The waves are filled in the order of the list: a container comes right after the last wave of those
it starts after, which were placed before it (`Waving`). In the tree a container stands under the
first that waits for it; going up leads along the dependencies, so it ends at a root. -/
namespace Iii.Compose
open Lib

/-! ### Waves -/

/-- A container is in the wave of this number. -/
def InWave (waves : List (List String)) (i : Nat) (key : String) : Prop := ∃ wave, waves[i]? = some wave ∧ key ∈ wave

section PushWave
variable {waves : List (List String)} {at' : Nat} {key : String}

theorem pushWave_last : pushWave waves waves.length key = waves ++ [[key]] := by
  have hone : waves.length + 1 - waves.length = 1 := by omega
  rw [pushWave]
  simp only [le_refl, if_true, hone, List.replicate_one]
  induction waves with
  | nil => rfl
  | cons wave rest ih => exact congrArg (wave :: ·) (ih (by omega))

theorem pushWave_inside (h : at' < waves.length) : pushWave waves at' key = waves.modify at' (· ++ [key]) := by
  rw [pushWave]
  simp only [if_neg (not_le.mpr h)]

theorem flatten_modify (h : at' < waves.length) :
    (waves.modify at' (· ++ [key])).flatten.Perm (waves.flatten ++ [key]) := by
  induction waves generalizing at' with
  | nil => cases h
  | cons wave rest ih =>
    cases at' with
    | zero =>
      rw [List.modify_zero_cons, List.flatten_cons, List.flatten_cons, List.append_assoc, List.append_assoc]
      exact List.perm_append_comm.append_left wave
    | succ i =>
      rw [List.modify_succ_cons, List.flatten_cons, List.flatten_cons, List.append_assoc]
      exact (ih (Nat.lt_of_succ_lt_succ h)).append_left wave

/-- One more container in a wave that exists, or in a new last one. -/
theorem pushWave_spec (key : String) (h : at' ≤ waves.length) :
    (pushWave waves at' key).flatten.Perm (waves.flatten ++ [key]) ∧
    ((∀ wave ∈ waves, wave ≠ []) → ∀ wave ∈ pushWave waves at' key, wave ≠ []) ∧
    at' < (pushWave waves at' key).length ∧ waves.length ≤ (pushWave waves at' key).length ∧
    ∀ i k, InWave (pushWave waves at' key) i k ↔ InWave waves i k ∨ (i = at' ∧ k = key) := by
  rcases Nat.eq_or_lt_of_le h with rfl | hlt
  · rw [pushWave_last]
    refine ⟨by simp, fun hfilled wave hwave => ?_, by simp, by simp, fun i k => ?_⟩
    · rcases List.mem_append.mp hwave with hwave | hwave
      · exact hfilled wave hwave
      · rw [List.mem_singleton.mp hwave]
        exact List.cons_ne_nil _ _
    · unfold InWave
      rcases lt_trichotomy i waves.length with hi | rfl | hi
      · rw [List.getElem?_append_left hi]
        simp [Nat.ne_of_lt hi]
      · rw [List.getElem?_append_right le_rfl, Nat.sub_self]
        simp
      · rw [List.getElem?_eq_none (by simpa using Nat.succ_le_of_lt hi), List.getElem?_eq_none hi.le]
        simp [Nat.ne_of_gt hi]
  · rw [pushWave_inside hlt]
    refine ⟨flatten_modify hlt, fun hfilled wave hwave => ?_, by rwa [List.length_modify], by rw [List.length_modify],
      fun i k => ?_⟩
    · obtain ⟨i, hi⟩ := List.mem_iff_getElem?.mp hwave
      rw [List.getElem?_modify, Option.map_eq_map, Option.map_eq_some_iff] at hi
      obtain ⟨old, hold, rfl⟩ := hi
      split
      · simp
      · exact hfilled old (List.mem_of_getElem? hold)
    · unfold InWave
      rw [List.getElem?_modify]
      by_cases heq : at' = i
      · subst heq
        rw [List.getElem?_eq_getElem hlt]
        simp
      · simp [heq, Ne.symm heq]

end PushWave

section Waves
variable {file : Project} {placed : SortedMap String Nat} {key : String}

/-- The wave comes right after the last of those the container starts after. -/
theorem waveOf_spec (file : Project) (placed : SortedMap String Nat) (key : String) :
    (∀ d ∈ file.startAfter key, ∀ j, placed.get? d = some j → j < waveOf file placed key) ∧
    (waveOf file placed key = 0 ∨
      ∃ d ∈ file.startAfter key, ∃ j, placed.get? d = some j ∧ waveOf file placed key = j + 1) := by
  unfold waveOf
  cases hmax : (((file.startAfter key).filterMap placed.get?).map (· + 1)).max? with
  | none =>
    have hnil := List.max?_eq_none_iff.mp hmax
    rw [List.map_eq_nil_iff] at hnil
    refine ⟨fun d hd j hj => ?_, .inl rfl⟩
    have hmem : j ∈ (file.startAfter key).filterMap placed.get? := List.mem_filterMap.mpr ⟨d, hd, hj⟩
    rw [hnil] at hmem
    cases hmem
  | some m =>
    obtain ⟨hm, hle⟩ := List.max?_eq_some_iff.mp hmax
    refine ⟨fun d hd j hj => ?_, .inr ?_⟩
    · exact hle (j + 1) (List.mem_map_of_mem (List.mem_filterMap.mpr ⟨d, hd, hj⟩))
    · obtain ⟨j, hj, rfl⟩ := List.mem_map.mp hm
      obtain ⟨d, hd, hdj⟩ := List.mem_filterMap.mp hj
      exact ⟨d, hd, j, hdj, rfl⟩

/-- What holds of the waves of a first part of the order. -/
structure Waving (file : Project) (done : List String) (placed : SortedMap String Nat) (waves : List (List String)) :
    Prop where
  placed_iff : ∀ k, (placed.get? k).isSome ↔ k ∈ done
  inWave_iff : ∀ i k, InWave waves i k ↔ placed.get? k = some i
  perm : waves.flatten.Perm done
  filled : ∀ wave ∈ waves, wave ≠ []
  within : ∀ k i, placed.get? k = some i → i < waves.length
  later : ∀ k i d j, placed.get? k = some i → d ∈ file.startAfter k → placed.get? d = some j → j < i
  least : ∀ f : String → Nat, (∀ k ∈ done, ∀ d ∈ file.startAfter k, d ∈ done → f d < f k) →
    ∀ k i, placed.get? k = some i → i ≤ f k

theorem Waving.push {done : List String} {waves : List (List String)} (h : Waving file done placed waves)
    (hfresh : key ∉ done) (hself : key ∉ file.startAfter key) (hback : ∀ k ∈ done, key ∉ file.startAfter k) :
    Waving file (done ++ [key]) (placed.insert key (waveOf file placed key))
      (pushWave waves (waveOf file placed key) key) := by
  obtain ⟨hafter, hcase⟩ := waveOf_spec file placed key
  have hle : waveOf file placed key ≤ waves.length := by
    rcases hcase with hzero | ⟨d, -, j, hj, heq⟩
    · rw [hzero]
      exact Nat.zero_le _
    · rw [heq]
      exact h.within d j hj
  have hnone : placed.get? key = none := by
    have := (not_congr (h.placed_iff key)).mpr hfresh
    simpa using this
  obtain ⟨hperm, hfilled, hat, hlonger, hin⟩ := pushWave_spec key hle
  have hget : ∀ k, (placed.insert key (waveOf file placed key)).get? k =
      if key = k then some (waveOf file placed key) else placed.get? k := fun _ => SortedMap.get?_insert
  have hdone : ∀ {k i}, placed.get? k = some i → k ∈ done := fun hk =>
    (h.placed_iff _).mp (Option.isSome_iff_exists.mpr ⟨_, hk⟩)
  refine ⟨fun k => ?_, fun i k => ?_, hperm.trans (h.perm.append_right _), hfilled h.filled, fun k i hk => ?_,
    fun k i d j hk hd hj => ?_, fun f hf k i hk => ?_⟩
  · rw [hget, List.mem_append, List.mem_singleton, ← h.placed_iff]
    by_cases heq : key = k
    · simp [heq]
    · simp [heq, Ne.symm heq]
  · rw [hin, hget, h.inWave_iff]
    by_cases heq : key = k
    · subst heq
      simp [hnone, eq_comm]
    · simp [heq, Ne.symm heq]
  · rw [hget] at hk
    split at hk
    · cases hk
      exact hat
    · exact (h.within k i hk).trans_le hlonger
  · rw [hget] at hk hj
    by_cases heq : key = k
    · subst heq
      have hne : key ≠ d := fun heq => hself (heq ▸ hd)
      rw [if_pos rfl] at hk
      rw [if_neg hne] at hj
      cases hk
      exact hafter d hd j hj
    · rw [if_neg heq] at hk
      have hne : key ≠ d := fun heq => hback k (hdone hk) (heq ▸ hd)
      rw [if_neg hne] at hj
      exact h.later k i d j hk hd hj
  · have hf' : ∀ k ∈ done, ∀ d ∈ file.startAfter k, d ∈ done → f d < f k := fun k hk d hd hd' =>
      hf k (List.mem_append_left _ hk) d hd (List.mem_append_left _ hd')
    rw [hget] at hk
    split at hk
    · rename_i heq
      subst heq
      cases hk
      rcases hcase with hzero | ⟨d, hd, j, hj, heq⟩
      · rw [hzero]
        exact Nat.zero_le _
      · rw [heq]
        have hj' := h.least f hf' d j hj
        have hlt := hf key (List.mem_append_right _ (List.mem_singleton_self key)) d hd
          (List.mem_append_left _ (hdone hj))
        omega
    · exact h.least f hf' k i hk

/-- The order in waves: every dependency inside it is in an earlier wave, and no container could
be in an earlier one. -/
structure Waved (file : Project) (order : List String) (waves : List (List String)) : Prop where
  perm : waves.flatten.Perm order
  filled : ∀ wave ∈ waves, wave ≠ []
  earlier : ∀ i k, InWave waves i k → ∀ d ∈ file.startAfter k, d ∈ order → ∃ j < i, InWave waves j d
  least : ∀ f : String → Nat, (∀ k ∈ order, ∀ d ∈ file.startAfter k, d ∈ order → f d < f k) →
    ∀ i k, InWave waves i k → i ≤ f k

theorem waves_waved {order : List String} (hnodup : order.Nodup) (hfirst : DependencyFirst file.startAfter order) :
    Waved file order (waves file order) := by
  have hrun : ∀ (rest done : List String) placed (filled : List (List String)), (done ++ rest).Nodup →
      DependencyFirst file.startAfter (done ++ rest) → Waving file done placed filled →
      ∃ placed', Waving file (done ++ rest) placed' (rest.foldl
        (fun (state : SortedMap String Nat × List (List String)) key =>
          let at' := waveOf file state.1 key
          (state.1.insert key at', pushWave state.2 at' key)) (placed, filled)).2 := by
    intro rest
    induction rest with
    | nil =>
      intro done placed filled _ _ h
      rw [List.append_nil]
      exact ⟨placed, h⟩
    | cons key rest ih =>
      intro done placed filled hnodup hfirst h
      have hfresh : key ∉ done := fun hmem =>
        (List.nodup_append.mp hnodup).2.2 key hmem key List.mem_cons_self rfl
      have hself := hfirst.1 key (List.mem_append_right _ List.mem_cons_self)
      have hback : ∀ k ∈ done, key ∉ file.startAfter k := fun k hk =>
        (List.pairwise_append.mp hfirst.2).2.2 k hk key List.mem_cons_self
      rw [List.append_cons] at hnodup hfirst ⊢
      exact ih (done ++ [key]) _ _ hnodup hfirst (h.push hfresh hself hback)
  have hstart : Waving file [] .empty [] :=
    ⟨fun k => by simp, fun i k => by simp [InWave], .refl _, (fun _ h => nomatch h), (fun _ _ h => nomatch h),
      (fun _ _ _ _ h => nomatch h), fun _ _ _ _ h => nomatch h⟩
  obtain ⟨placed, h⟩ := hrun order [] .empty [] hnodup hfirst hstart
  rw [List.nil_append] at h
  refine ⟨h.perm, h.filled, fun i k hk d hd hmem => ?_, fun f hf i k hk => h.least f hf k i ((h.inWave_iff i k).mp hk)⟩
  obtain ⟨j, hj⟩ := Option.isSome_iff_exists.mp ((h.placed_iff d).mpr hmem)
  exact ⟨j, h.later k i d j ((h.inWave_iff i k).mp hk) hd hj, (h.inWave_iff j d).mpr hj⟩

end Waves

/-! ### The tree -/

section Outline
variable {file : Project} {order : List String}

/-- A parent waits for its child, and both are shown. -/
theorem parents_spec {d p : String} (h : (parents file order).get? d = some p) :
    p ∈ order ∧ d ∈ order ∧ d ∈ file.startAfter p := by
  -- Whatever has been entered so far is like that.
  let Sound (parent : SortedMap String String) : Prop :=
    ∀ d p, parent.get? d = some p → p ∈ order ∧ d ∈ order ∧ d ∈ file.startAfter p
  have hadopt : ∀ {key dependency : String} {parent : SortedMap String String}, key ∈ order →
      dependency ∈ file.startAfter key → Sound parent → Sound (adopt order key parent dependency) := by
    intro key dependency parent hkey hdep hsound d p hget
    unfold adopt at hget
    split at hget
    · rename_i hnew
      rw [SortedMap.get?_insert] at hget
      split at hget
      · rename_i heq
        subst heq
        cases hget
        exact ⟨hkey, hnew.1, hdep⟩
      · exact hsound d p hget
    · exact hsound d p hget
  have hempty : Sound .empty := by
    intro d p hget
    rw [SortedMap.get?_empty] at hget
    cases hget
  have hall : Sound (parents file order) := by
    refine List.foldlRecOn file.containers _ hempty fun parent hparent container hcontainer => ?_
    split
    · rename_i hshown
      refine List.foldlRecOn container.2 _ hparent fun parent hparent dependency hdep => ?_
      refine hadopt hshown ?_ hparent
      rwa [Project.startAfter_of_mem (show (container.1, container.2) ∈ file.containers from hcontainer)]
    · exact hparent
  exact hall d p h

theorem childrenOf_spec (parent : SortedMap String String) (p : String) :
    ((childrenOf order parent).get? p).getD [] = order.filter fun k => parent.get? k = some p := by
  have hfold : ∀ {step : SortedMap String (List String) → String → SortedMap String (List String)},
      (∀ children key, ((step children key).get? p).getD [] =
        (children.get? p).getD [] ++ if parent.get? key = some p then [key] else []) →
      ∀ (l : List String) (children : SortedMap String (List String)), ((l.foldl step children).get? p).getD [] =
        (children.get? p).getD [] ++ l.filter fun k => parent.get? k = some p := by
    intro step hstep l
    induction l with
    | nil => exact fun children => (List.append_nil _).symm
    | cons key rest ih =>
      intro children
      rw [List.foldl_cons, ih, List.filter_cons, hstep, List.append_assoc]
      by_cases heq : parent.get? key = some p <;> simp [heq]
  rw [childrenOf, hfold, SortedMap.get?_empty]
  · rfl
  · intro children key
    cases howner : parent.get? key with
    | none => simp
    | some owner =>
      by_cases heq : owner = p
      · subst heq
        simp
      · simp [heq]

theorem walkTree_keys (parent : SortedMap String String) (rows : Nat) (key : String) (depth : Nat) :
    (walkTree (childrenOf order parent) rows key depth).map (·.1) = below order parent.get? rows key := by
  induction rows generalizing key depth with
  | zero => rfl
  | succ rows ih =>
    rw [walkTree, below, List.map_cons, List.map_flatMap, childrenOf_spec]
    simp only [ih]

/-- Every container of the order is drawn once. -/
theorem outline_perm (hacyclic : Acyclic file.startAfter) (hnodup : order.Nodup) :
    ((outline file order).map (·.1)).Perm order := by
  have hforest : (outline file order).map (·.1) = forest order (parents file order).get? order.length := by
    have hroots : (order.filter fun key => ((parents file order).get? key).isNone) =
        order.filter fun key => (parents file order).get? key = none :=
      List.filter_congr fun key _ => by cases (parents file order).get? key <;> rfl
    rw [outline, forest, List.map_flatMap, hroots]
    simp only [walkTree_keys]
  rw [hforest]
  refine forest_perm hnodup (fun c p h => ⟨(parents_spec h).2.1, (parents_spec h).1⟩) fun k hcycle => ?_
  -- Up the tree is back along the dependencies.
  refine hacyclic k ?_
  have hup : (fun c p => (parents file order).get? c = some p) ≤ Function.swap (Waits file.startAfter) :=
    fun c p h => (parents_spec h).2.2
  exact Relation.transGen_swap.mp (Relation.TransGen.mono hup k k hcycle)

end Outline

/-! ### A whole file -/

/-- What a file that is accepted is ordered like. -/
structure Ordered (file : Project) : Prop where
  topoOrder : ∃ order, topoOrder file = .ok order ∧ order.Perm file.keys ∧ DependencyFirst file.startAfter order
  dependents : ∀ key, (transitiveDependents file key).Nodup ∧
    (∀ k, k ∈ transitiveDependents file key ↔ Relation.TransGen (Waits file.startAfter) k key) ∧
    (transitiveDependents file key).Pairwise fun a b => ¬ Relation.TransGen (Waits file.startAfter) b a
  outline : ∀ order, order.Nodup → ((outline file order).map (·.1)).Perm order

/-- The dependencies of any file: when it is accepted, what is reported otherwise, and what the
orders made of it are. -/
theorem dependency_ordering (file : Project) :
    (validateDependencies file = .ok () ↔ file.Declared ∧ Acyclic file.startAfter) ∧
    (∀ e, validateDependencies file = .error e →
      (∃ key dependency, e = .unknownDependency key dependency ∧ dependency ∈ file.startAfter key ∧
        dependency ∉ file.keys) ∨
      ∃ cycle, e = .dependencyCycle (String.intercalate " -> " cycle) ∧ IsCycle file.startAfter cycle) ∧
    (validateDependencies file = .ok () → Ordered file) ∧
    (∀ order, order.Nodup → DependencyFirst file.startAfter order → Waved file order (waves file order)) ∧
    ∀ key k, k ∈ dependencyClosure file key ↔ Relation.ReflTransGen (Waits file.startAfter) key k := by
  refine ⟨validateDependencies_iff, fun e => validateDependencies_error, fun h => ?_, fun order => waves_waved,
    fun key k => mem_dependencyClosure⟩
  obtain ⟨hdeclared, hacyclic⟩ := validateDependencies_iff.mp h
  exact ⟨topoOrder_spec hdeclared hacyclic, transitiveDependents_spec hdeclared hacyclic,
    fun order => outline_perm hacyclic⟩

/-- `api` names `db` twice. -/
def webProject : Project where
  containers := [("web", ["api", "db"]), ("db", []), ("api", ["db", "db"])]
  distinct := by decide

theorem dependency_ordering_web :
    Ordered webProject ∧ Waved webProject ["db", "api", "web"] (waves webProject ["db", "api", "web"]) := by
  obtain ⟨-, -, hordered, hwaved, -⟩ := dependency_ordering webProject
  exact ⟨hordered (by rfl), hwaved _ (by decide) ⟨by decide, by decide⟩⟩

example : topoOrder webProject = .ok ["db", "api", "web"] ∧ transitiveDependents webProject "db" = ["web", "api"] ∧
    waves webProject ["db", "api", "web"] = [["db"], ["api"], ["web"]] ∧
    outline webProject ["db", "api", "web"] = [("web", 0), ("db", 1), ("api", 1)] := by
  decide

end Iii.Compose
