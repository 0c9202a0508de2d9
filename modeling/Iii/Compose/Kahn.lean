import Iii.Compose.Cycle

/-! The start order of a file (`iii-compose`, `dag.rs`).

While the queue is drained, a container waits for as many names as are not emitted yet, counted
as often as they are named; it is emitted or ready when that is none (`Draining`). What is left
when the queue is empty waits for something that is left, so without a cycle nothing is. -/
namespace Iii.Compose
open Lib

/-! ### Counting -/

section Count
variable {file : Project}

/-- The entries of one container. -/
theorem get?_addDependents (key : String) (startAfter : List String) (dependents : SortedMap String (List String))
    (d : String) :
    ((startAfter.foldl (fun dependents dependency =>
      dependents.insert dependency ((dependents.get? dependency).getD [] ++ [key])) dependents).get? d).getD [] =
      (dependents.get? d).getD [] ++ List.replicate (startAfter.count d) key := by
  induction startAfter generalizing dependents with
  | nil => exact (List.append_nil _).symm
  | cons dependency rest ih =>
    rw [List.foldl_cons, ih, SortedMap.get?_insert, List.count_cons]
    by_cases heq : dependency = d
    · subst heq
      rw [if_pos rfl, beq_self_eq_true, if_pos rfl, Option.getD_some, List.append_assoc, List.singleton_append,
        ← List.replicate_succ]
    · rw [if_neg heq, if_neg (by simpa using heq), Nat.add_zero]

/-- The maps after a first part of the containers. -/
theorem kahn_foldl (containers : List (String × List String)) (hdistinct : (containers.map (·.1)).Nodup) (kahn : Kahn)
    (hfresh : ∀ k ∈ containers.map (·.1), kahn.pending.get? k = none) :
    (∀ k, (containers.foldl Kahn.add kahn).pending.get? k =
      ((Assoc.get? containers k).map List.length).or (kahn.pending.get? k)) ∧
    ∀ d k, (((containers.foldl Kahn.add kahn).dependents.get? d).getD []).count k =
      ((kahn.dependents.get? d).getD []).count k + ((Assoc.get? containers k).getD []).count d := by
  induction containers generalizing kahn with
  | nil => exact ⟨fun _ => rfl, fun _ _ => rfl⟩
  | cons container rest ih =>
    obtain ⟨key, startAfter⟩ := container
    rw [List.map_cons, List.nodup_cons] at hdistinct
    have hnone : Assoc.get? rest key = none := Assoc.get?_eq_none_iff.mpr hdistinct.1
    have hfresh' : ∀ k ∈ rest.map (·.1), (kahn.add (key, startAfter)).pending.get? k = none := by
      intro k hk
      have hne : key ≠ k := fun heq => hdistinct.1 (heq ▸ hk)
      rw [Kahn.add, SortedMap.get?_insert, if_neg hne]
      exact hfresh k (List.mem_cons_of_mem _ hk)
    obtain ⟨hpending, hdependents⟩ := ih hdistinct.2 (kahn.add (key, startAfter)) hfresh'
    constructor
    · intro k
      rw [List.foldl_cons, hpending, Assoc.get?_cons, Kahn.add, SortedMap.get?_insert]
      by_cases heq : key = k
      · subst heq
        rw [if_pos rfl, if_pos rfl, hnone]
        rfl
      · rw [if_neg heq, if_neg heq]
    · intro d k
      rw [List.foldl_cons, hdependents, Kahn.add, get?_addDependents, List.count_append, List.count_replicate, Assoc.get?_cons]
      by_cases heq : key = k
      · subst heq
        simp [hnone]
      · simp [heq]

theorem pending_ofFile (k : String) :
    (Kahn.ofFile file).pending.get? k = if k ∈ file.keys then some (file.startAfter k).length else none := by
  have h := (kahn_foldl file.containers file.distinct ⟨.empty, .empty⟩ fun _ _ => rfl).1 k
  rw [SortedMap.get?_empty, Option.or_none] at h
  refine h.trans ?_
  by_cases hk : k ∈ file.keys
  · rw [if_pos hk, Assoc.get?_of_mem file.distinct (Project.mem_containers hk)]
    rfl
  · rw [if_neg hk, Assoc.get?_eq_none_iff.mpr hk]
    rfl

theorem dependents_ofFile (d k : String) :
    (((Kahn.ofFile file).dependents.get? d).getD []).count k = (file.startAfter k).count d := by
  have h := (kahn_foldl file.containers file.distinct ⟨.empty, .empty⟩ fun _ _ => rfl).2 d k
  refine h.trans ?_
  rw [SortedMap.get?_empty, Option.getD_none, List.count_nil, Nat.zero_add]
  rfl

end Count

/-! ### Draining the queue -/

/-- The dependents of one container, each as often as it is listed. -/
theorem release_foldl (dependents : List String) (pending : SortedMap String Nat) (ready : List String)
    (hlisted : ∀ k ∈ dependents, ∃ n, pending.get? k = some n ∧ dependents.count k ≤ n) :
    ∃ pushed, (dependents.foldl release (pending, ready)).2 = ready ++ pushed ∧ pushed.Nodup ∧
      (∀ k, k ∈ pushed ↔ k ∈ dependents ∧ pending.get? k = some (dependents.count k)) ∧
      ∀ k, (dependents.foldl release (pending, ready)).1.get? k =
        (pending.get? k).map (· - dependents.count k) := by
  induction dependents generalizing pending ready with
  | nil =>
    refine ⟨[], (List.append_nil ready).symm, .nil, fun k => ⟨(fun h => nomatch h), fun h => nomatch h.1⟩, fun k => ?_⟩
    rw [List.foldl_nil, List.count_nil]
    cases pending.get? k <;> rfl
  | cons d rest ih =>
    obtain ⟨n, hn, hle⟩ := hlisted d List.mem_cons_self
    rw [List.count_cons_self] at hle
    have hstep : release (pending, ready) d =
        (pending.insert d (n - 1), if n - 1 = 0 then ready ++ [d] else ready) := by
      rw [release, hn]
    have hlisted' : ∀ k ∈ rest, ∃ m, (pending.insert d (n - 1)).get? k = some m ∧ rest.count k ≤ m := by
      intro k hk
      rw [SortedMap.get?_insert]
      by_cases heq : d = k
      · subst heq
        exact ⟨n - 1, if_pos rfl, by omega⟩
      · obtain ⟨m, hm, hcount⟩ := hlisted k (List.mem_cons_of_mem _ hk)
        rw [List.count_cons_of_ne heq] at hcount
        exact ⟨m, by rw [if_neg heq, hm], hcount⟩
    obtain ⟨pushed, hready, hnodup, hmem, hpending⟩ :=
      ih (pending.insert d (n - 1)) (if n - 1 = 0 then ready ++ [d] else ready) hlisted'
    -- `d` is in what follows only when it is still waited for.
    have hd : d ∈ pushed ↔ d ∈ rest ∧ n = rest.count d + 1 := by
      rw [hmem, SortedMap.get?_insert, if_pos rfl, Option.some.injEq]
      exact and_congr_right fun _ => by omega
    have hother : ∀ k, d ≠ k → (k ∈ pushed ↔ k ∈ d :: rest ∧ pending.get? k = some ((d :: rest).count k)) := by
      intro k hne
      rw [hmem, SortedMap.get?_insert, if_neg hne, List.mem_cons, or_iff_right (Ne.symm hne),
        List.count_cons_of_ne hne]
    have hlast : ∀ k, ((d :: rest).foldl release (pending, ready)).1.get? k =
        (pending.get? k).map (· - (d :: rest).count k) := by
      intro k
      rw [List.foldl_cons, hstep, hpending, SortedMap.get?_insert]
      by_cases heq : d = k
      · subst heq
        rw [if_pos rfl, hn, List.count_cons_self, Option.map_some, Option.map_some, Nat.sub_sub, Nat.add_comm 1]
      · rw [if_neg heq, List.count_cons_of_ne heq]
    rw [List.foldl_cons, hstep]
    by_cases hzero : n - 1 = 0
    · have hnot : d ∉ rest := by
        intro hmem
        have := List.count_pos_iff.mpr hmem
        omega
      refine ⟨d :: pushed, ?_, List.nodup_cons.mpr ⟨fun h => hnot (hd.mp h).1, hnodup⟩, fun k => ?_, ?_⟩
      · rw [hready, if_pos hzero, List.append_assoc, List.singleton_append]
      · by_cases heq : d = k
        · subst heq
          refine iff_of_true List.mem_cons_self ⟨List.mem_cons_self, ?_⟩
          rw [hn, List.count_cons_self, List.count_eq_zero_of_not_mem hnot]
          exact congrArg some (by omega)
        · rw [List.mem_cons, or_iff_right (Ne.symm heq), hother k heq]
      · rw [← hstep, ← List.foldl_cons]
        exact hlast
    · refine ⟨pushed, by rw [hready, if_neg hzero], hnodup, fun k => ?_, ?_⟩
      · by_cases heq : d = k
        · subst heq
          rw [hd, hn, List.count_cons_self, Option.some.injEq]
          refine ⟨fun h => ⟨List.mem_cons_self, h.2⟩, fun h => ⟨?_, h.2⟩⟩
          by_contra hnot
          rw [List.count_eq_zero_of_not_mem hnot] at h
          omega
        · exact hother k heq
      · rw [← hstep, ← List.foldl_cons]
        exact hlast

/-- What holds whenever the loop comes round: the counts, and who is emitted or ready. -/
structure Draining (file : Project) (pending : SortedMap String Nat) (ready order : List String) : Prop where
  pending : ∀ k, pending.get? k =
    if k ∈ file.keys then some ((file.startAfter k).countP (· ∉ order)) else none
  nodup : (order ++ ready).Nodup
  mem : ∀ k, k ∈ order ++ ready ↔ k ∈ file.keys ∧ ∀ d ∈ file.startAfter k, d ∈ order
  first : DependencyFirst file.startAfter order

theorem countP_emitted {key : String} {order l : List String} (h : key ∉ order) :
    l.countP (· ∉ order ++ [key]) + l.count key = l.countP (· ∉ order) := by
  induction l with
  | nil => rfl
  | cons d rest ih =>
    rw [List.countP_cons, List.countP_cons, List.count_cons]
    by_cases heq : d = key
    · subst heq
      have hemitted : decide (d ∉ order ++ [d]) = false := by simp
      rw [hemitted, decide_eq_true h, beq_self_eq_true, if_pos rfl]
      simp only [Bool.false_eq_true, if_false]
      omega
    · have hmem : d ∈ order ++ [key] ↔ d ∈ order := by simp [heq]
      simp only [hmem, beq_iff_eq, heq, if_false]
      omega

section Drain
variable {file : Project} {pending : SortedMap String Nat} {ready order : List String} {key : String}

theorem countP_eq_zero {deps order : List String} : deps.countP (· ∉ order) = 0 ↔ ∀ d ∈ deps, d ∈ order := by
  rw [List.countP_eq_zero]
  simp

/-- One turn: the key is emitted, and those that waited for it last are ready. -/
theorem Draining.step (h : Draining file pending (key :: ready) order) {dependents : List String}
    (hdependents : ∀ k, dependents.count k = (file.startAfter k).count key) :
    Draining file (dependents.foldl release (pending, ready)).1 (dependents.foldl release (pending, ready)).2
      (order ++ [key]) := by
  have hnodup := h.nodup
  rw [List.nodup_append] at hnodup
  have hfresh : key ∉ order := fun hmem => hnodup.2.2 key hmem key List.mem_cons_self rfl
  have hkey : key ∈ file.keys ∧ ∀ d ∈ file.startAfter key, d ∈ order :=
    (h.mem key).mp (List.mem_append_right _ List.mem_cons_self)
  have hwaits : ∀ k, k ∈ dependents ↔ key ∈ file.startAfter k := by
    intro k
    rw [← List.count_pos_iff, hdependents, List.count_pos_iff]
  have hlisted : ∀ k ∈ dependents, ∃ n, pending.get? k = some n ∧ dependents.count k ≤ n := by
    intro k hk
    refine ⟨_, (h.pending k).trans (if_pos (Project.mem_keys_of_startAfter ((hwaits k).mp hk))), ?_⟩
    have := countP_emitted (l := file.startAfter k) hfresh
    rw [hdependents]
    omega
  obtain ⟨pushed, hready, hpushed, hmem, hpending⟩ := release_foldl dependents pending ready hlisted
  -- Those that are pushed waited for the key, so they are neither emitted nor ready yet.
  have hlate : ∀ k ∈ pushed, k ∉ order ++ key :: ready := by
    intro k hk hmem'
    exact hfresh (((h.mem k).mp hmem').2 key ((hwaits k).mp ((hmem k).mp hk).1))
  have hzero : ∀ k ∈ file.keys, (pending.get? k = some (dependents.count k) ↔
      ∀ d ∈ file.startAfter k, d ∈ order ++ [key]) := by
    intro k hk
    have hcount := countP_emitted (l := file.startAfter k) hfresh
    rw [h.pending k, if_pos hk, hdependents, Option.some.injEq, ← countP_eq_zero]
    omega
  refine ⟨fun k => ?_, ?_, fun k => ?_, ?_, ?_⟩
  · rw [hpending, h.pending k]
    by_cases hk : k ∈ file.keys
    · have hcount := countP_emitted (l := file.startAfter k) hfresh
      rw [if_pos hk, if_pos hk, Option.map_some, hdependents]
      exact congrArg some (by omega)
    · rw [if_neg hk, if_neg hk]
      rfl
  · rw [hready, List.append_assoc, List.singleton_append, ← List.cons_append, ← List.append_assoc, List.nodup_append]
    exact ⟨h.nodup, hpushed, fun a ha b hb heq => hlate b hb (heq ▸ ha)⟩
  · rw [hready, List.append_assoc, List.singleton_append, ← List.cons_append, ← List.append_assoc, List.mem_append, h.mem,
      hmem, hwaits]
    constructor
    · rintro (⟨hk, hdeps⟩ | ⟨hk, hcount⟩)
      · exact ⟨hk, fun d hd => List.mem_append_left _ (hdeps d hd)⟩
      · have hk' := Project.mem_keys_of_startAfter hk
        exact ⟨hk', (hzero k hk').mp hcount⟩
    · rintro ⟨hk, hdeps⟩
      by_cases hwait : key ∈ file.startAfter k
      · exact .inr ⟨hwait, (hzero k hk).mpr hdeps⟩
      · refine .inl ⟨hk, fun d hd => ?_⟩
        rcases List.mem_append.mp (hdeps d hd) with hd' | hd'
        · exact hd'
        · exact absurd (List.mem_singleton.mp hd' ▸ hd) hwait
  · intro k hk hself
    rcases List.mem_append.mp hk with hk | hk
    · exact h.first.1 k hk hself
    · rw [List.mem_singleton.mp hk] at hself
      exact hfresh (hkey.2 key hself)
  · refine List.pairwise_append.mpr ⟨h.first.2, List.pairwise_singleton _ _, fun a ha b hb hab => ?_⟩
    rw [List.mem_singleton.mp hb] at hab
    exact hfresh (((h.mem a).mp (List.mem_append_left _ ha)).2 key hab)

/-- The loop ends with an empty queue, in as many turns as there are containers. -/
theorem drain_spec (rounds : Nat) {dependents : SortedMap String (List String)}
    (hdependents : ∀ d k, ((dependents.get? d).getD []).count k = (file.startAfter k).count d)
    (h : Draining file pending ready order) (hrounds : file.keys.length ≤ rounds + order.length) :
    ∃ pending', Draining file pending' [] (drain dependents rounds pending ready order) := by
  induction rounds generalizing pending ready order with
  | zero =>
    have hsub : (order ++ ready).Subperm file.keys := List.subperm_of_subset h.nodup fun k hk => ((h.mem k).mp hk).1
    have hle := hsub.length_le
    rw [List.length_append] at hle
    have hnil : ready = [] := List.eq_nil_of_length_eq_zero (by omega)
    subst hnil
    exact ⟨pending, h⟩
  | succ rounds ih =>
    cases ready with
    | nil => exact ⟨pending, h⟩
    | cons key ready =>
      have hstep := h.step (hdependents key)
      exact ih hstep (by rw [List.length_append, List.length_singleton]; omega)

/-- Without a cycle nothing is left. -/
theorem Draining.complete (h : Draining file pending [] order) (hdeclared : file.Declared)
    (hacyclic : Acyclic file.startAfter) : order.Perm file.keys := by
  have hall : ∀ k ∈ file.keys, k ∈ order := by
    refine hacyclic.induction (fun k _ d hd => hdeclared k d hd) fun k hk ih => ?_
    have := (h.mem k).mpr ⟨hk, ih⟩
    rwa [List.append_nil] at this
  have hnodup : order.Nodup := by
    have := h.nodup
    rwa [List.append_nil] at this
  refine (List.perm_ext_iff_of_nodup hnodup file.distinct).mpr fun k => ⟨fun hk => ?_, hall k⟩
  exact ((h.mem k).mp (List.mem_append_left _ hk)).1

theorem topoOrder_spec (hdeclared : file.Declared) (hacyclic : Acyclic file.startAfter) :
    ∃ order, topoOrder file = .ok order ∧ order.Perm file.keys ∧ DependencyFirst file.startAfter order := by
  have hstart : Draining file (Kahn.ofFile file).pending
      (file.keys.filter fun key => (Kahn.ofFile file).pending.get? key = some 0) [] := by
    refine ⟨fun k => ?_, ?_, fun k => ?_, (fun _ hk => nomatch hk), .nil⟩
    · rw [pending_ofFile]
      simp
    · exact List.Nodup.filter _ file.distinct
    · rw [List.nil_append, List.mem_filter, pending_ofFile]
      refine and_congr_right fun hk => ?_
      rw [if_pos hk, decide_eq_true_eq, Option.some.injEq, List.length_eq_zero_iff, List.eq_nil_iff_forall_not_mem]
      simp
  obtain ⟨pending, h⟩ := drain_spec file.containers.length dependents_ofFile hstart
    (by rw [Project.keys, List.length_map]; exact Nat.le_add_right _ _)
  have hperm := h.complete hdeclared hacyclic
  refine ⟨_, ?_, hperm, h.first⟩
  have hlength := hperm.length_eq
  rw [Project.keys, List.length_map] at hlength
  exact if_neg (not_not.mpr hlength)

end Drain

/-! ### What a container needs, and what needs it -/

section Reach
variable {file : Project}

theorem closureLoop_eq (rounds : Nat) (queue : List String) (closure : Finset String) :
    closureLoop file rounds queue closure =
      reachBy (fun new queue => queue ++ new) file.startAfter rounds queue closure := by
  induction rounds generalizing queue closure with
  | zero => rfl
  | succ n ih =>
    cases queue with
    | nil => rfl
    | cons current queue => rw [closureLoop, reachBy, ih, ih]

theorem sum_startAfter : ∑ k ∈ file.keys.toFinset, (file.startAfter k).length = (file.containers.map (·.2.length)).sum := by
  have hmap : file.containers.map (·.2.length) = file.keys.map fun k => (file.startAfter k).length := by
    rw [Project.keys, List.map_map]
    refine List.map_congr_left fun c hc => ?_
    exact congrArg List.length (Project.startAfter_of_mem (show (c.1, c.2) ∈ file.containers from hc)).symm
  rw [hmap, List.sum_toFinset _ file.nodup_keys]

theorem mem_dependencyClosure {key k : String} :
    k ∈ dependencyClosure file key ↔ Relation.ReflTransGen (Waits file.startAfter) key k := by
  have hnodes : ∀ k ∉ file.keys.toFinset, file.startAfter k = [] := fun k hk =>
    Project.startAfter_of_not_mem fun hmem => hk (List.mem_toFinset.mpr hmem)
  have hfuel : Lib.pending file.startAfter file.keys.toFinset [key] ∅ ≤ (file.containers.map (·.2.length)).sum + 1 := by
    rw [Lib.pending, Finset.sdiff_empty, sum_startAfter, List.length_singleton, Nat.add_comm]
  rw [dependencyClosure, closureLoop_eq, mem_reachBy (fun new queue => List.perm_append_comm) hnodes hfuel]
  simp only [List.mem_singleton, exists_eq_left]
  exact Iff.rfl

/-- The dependents of one container that were not discovered before, in the order of declaration. -/
theorem discover_foldl (current : String) {containers : List (String × List String)}
    (hdistinct : (containers.map (·.1)).Nodup) (discovered : Finset String) (queue : List String) :
    ∃ fresh : List String, containers.foldl (discover current) (discovered, queue) =
        (discovered ∪ fresh.toFinset, queue ++ fresh) ∧ fresh.Nodup ∧
      ∀ k, k ∈ fresh ↔ (∃ deps, (k, deps) ∈ containers ∧ current ∈ deps) ∧ k ∉ discovered := by
  induction containers generalizing discovered queue with
  | nil => exact ⟨[], by simp, .nil, by simp⟩
  | cons container rest ih =>
    obtain ⟨key, deps⟩ := container
    rw [List.map_cons, List.nodup_cons] at hdistinct
    have hkey : ∀ deps', (key, deps') ∉ rest := fun deps' hmem => hdistinct.1 (List.mem_map_of_mem (f := (·.1)) hmem)
    by_cases hwaits : current ∈ deps ∧ key ∉ discovered
    · have hstep : discover current (discovered, queue) (key, deps) = (insert key discovered, queue ++ [key]) := by
        rw [discover, if_neg (not_not.mpr hwaits.1), if_neg hwaits.2]
      obtain ⟨fresh, hfold, hnodup, hmem⟩ := ih hdistinct.2 (insert key discovered) (queue ++ [key])
      have hnot : key ∉ fresh := fun h => ((hmem key).mp h).2 (Finset.mem_insert_self _ _)
      refine ⟨key :: fresh, ?_, List.nodup_cons.mpr ⟨hnot, hnodup⟩, fun k => ?_⟩
      · rw [List.foldl_cons, hstep, hfold, List.append_assoc, List.singleton_append, List.toFinset_cons,
          Finset.insert_union, Finset.union_insert]
      · rw [List.mem_cons, hmem]
        by_cases heq : k = key
        · subst heq
          exact iff_of_true (.inl rfl) ⟨⟨deps, List.mem_cons_self, hwaits.1⟩, hwaits.2⟩
        · simp [heq]
    · have hstep : discover current (discovered, queue) (key, deps) = (discovered, queue) := by
        rw [discover]
        by_cases hcurrent : current ∈ deps
        · rw [if_neg (not_not.mpr hcurrent), if_pos (not_not.mp fun h => hwaits ⟨hcurrent, h⟩)]
        · rw [if_pos hcurrent]
      obtain ⟨fresh, hfold, hnodup, hmem⟩ := ih hdistinct.2 discovered queue
      refine ⟨fresh, by rw [List.foldl_cons, hstep, hfold], hnodup, fun k => ?_⟩
      rw [hmem]
      refine and_congr_left fun hfresh => ?_
      constructor
      · rintro ⟨deps', hmem', hcurrent⟩
        exact ⟨deps', List.mem_cons_of_mem _ hmem', hcurrent⟩
      · rintro ⟨deps', hmem', hcurrent⟩
        rcases List.mem_cons.mp hmem' with heq | hmem'
        · cases heq
          exact absurd ⟨hcurrent, hfresh⟩ hwaits
        · exact ⟨deps', hmem', hcurrent⟩

theorem mem_containers_iff {current k : String} :
    (∃ deps, (k, deps) ∈ file.containers ∧ current ∈ deps) ↔ current ∈ file.startAfter k := by
  constructor
  · rintro ⟨deps, hmem, hcurrent⟩
    rwa [Project.startAfter_of_mem hmem]
  · intro h
    exact ⟨_, Project.mem_containers (Project.mem_keys_of_startAfter h), h⟩

/-- What has been discovered when the queue is empty. -/
structure Discovered (file : Project) (key : String) (discovered : Finset String) : Prop where
  reaches : ∀ k ∈ discovered, Relation.TransGen (Waits file.startAfter) k key
  closed : ∀ current, (current = key ∨ current ∈ discovered) → ∀ k, current ∈ file.startAfter k → k ∈ discovered

theorem dependentsLoop_discovered {key : String} {rounds : Nat} {queue : List String} {discovered : Finset String}
    (hrounds : queue.length + (file.keys.toFinset \ discovered).card ≤ rounds)
    (hqueue : ∀ current ∈ queue, current = key ∨ current ∈ discovered)
    (hreaches : ∀ k ∈ discovered, Relation.TransGen (Waits file.startAfter) k key)
    (hclosed : ∀ current, (current = key ∨ current ∈ discovered) → current ∉ queue →
      ∀ k, current ∈ file.startAfter k → k ∈ discovered) :
    Discovered file key (dependentsLoop file rounds queue discovered) := by
  induction rounds generalizing queue discovered with
  | zero =>
    have hnil : queue = [] := List.eq_nil_of_length_eq_zero (by omega)
    subst hnil
    exact ⟨hreaches, fun current h => hclosed current h List.not_mem_nil⟩
  | succ rounds ih =>
    cases queue with
    | nil => exact ⟨hreaches, fun current h => hclosed current h List.not_mem_nil⟩
    | cons current queue =>
      obtain ⟨fresh, hfold, hnodup, hfresh⟩ := discover_foldl current file.distinct discovered queue
      simp only [mem_containers_iff] at hfresh
      rw [dependentsLoop, hfold]
      have hnew : ∀ k ∈ discovered ∪ fresh.toFinset, Relation.TransGen (Waits file.startAfter) k key := by
        intro k hk
        rcases Finset.mem_union.mp hk with hk | hk
        · exact hreaches k hk
        · have hstep := ((hfresh k).mp (List.mem_toFinset.mp hk)).1
          rcases hqueue current List.mem_cons_self with heq | hmem
          · exact .single (heq ▸ hstep)
          · exact .head hstep (hreaches current hmem)
      refine ih ?_ ?_ hnew ?_
      · -- What is new in the queue is no longer among those that are not discovered.
        have hsub : fresh.toFinset ⊆ file.keys.toFinset \ discovered := by
          intro k hk
          have h := (hfresh k).mp (List.mem_toFinset.mp hk)
          exact Finset.mem_sdiff.mpr ⟨List.mem_toFinset.mpr (Project.mem_keys_of_startAfter h.1), h.2⟩
        have hcard : (file.keys.toFinset \ (discovered ∪ fresh.toFinset)).card =
            (file.keys.toFinset \ discovered).card - fresh.length := by
          have hsdiff : file.keys.toFinset \ (discovered ∪ fresh.toFinset) =
              (file.keys.toFinset \ discovered) \ fresh.toFinset := by
            ext k
            simp only [Finset.mem_sdiff, Finset.mem_union, not_or, and_assoc]
          rw [hsdiff, Finset.card_sdiff_of_subset hsub, List.toFinset_card_of_nodup hnodup]
        have hle := Finset.card_le_card hsub
        rw [List.toFinset_card_of_nodup hnodup] at hle
        rw [hcard, List.length_append]
        rw [List.length_cons] at hrounds
        omega
      · intro k hk
        rcases List.mem_append.mp hk with hk | hk
        · exact (hqueue k (List.mem_cons_of_mem _ hk)).imp_right fun h => Finset.mem_union_left _ h
        · exact .inr (Finset.mem_union_right _ (List.mem_toFinset.mpr hk))
      · intro x hx hnot k hk
        by_cases hdone : k ∈ discovered
        · exact Finset.mem_union_left _ hdone
        · refine Finset.mem_union_right _ (List.mem_toFinset.mpr ((hfresh k).mpr ⟨?_, hdone⟩))
          by_contra hne
          have hx' : x = key ∨ x ∈ discovered := by
            refine hx.imp_right fun h => ?_
            rcases Finset.mem_union.mp h with h | h
            · exact h
            · exact absurd (List.mem_append_right _ (List.mem_toFinset.mp h)) hnot
          refine hdone (hclosed x hx' ?_ k hk)
          rw [List.mem_cons, not_or]
          exact ⟨fun heq => hne (heq ▸ hk), fun h => hnot (List.mem_append_left _ h)⟩

theorem mem_dependentsLoop {key k : String} :
    k ∈ dependentsLoop file (file.containers.length + 1) [key] ∅ ↔
      Relation.TransGen (Waits file.startAfter) k key := by
  have h : Discovered file key (dependentsLoop file (file.containers.length + 1) [key] ∅) := by
    refine dependentsLoop_discovered ?_ ?_ (fun _ hk => absurd hk (Finset.notMem_empty _)) ?_
    · rw [Finset.sdiff_empty, List.toFinset_card_of_nodup file.nodup_keys, Project.keys, List.length_map,
        List.length_singleton, Nat.add_comm]
    · exact fun current hcurrent => .inl (List.mem_singleton.mp hcurrent)
    · intro current hcurrent hnot
      rcases hcurrent with rfl | hmem
      · exact absurd (List.mem_singleton_self _) hnot
      · exact absurd hmem (Finset.notMem_empty _)
  refine ⟨h.reaches k, fun hpath => ?_⟩
  induction hpath using Relation.TransGen.head_induction_on with
  | single hstep => exact h.closed key (.inl rfl) _ hstep
  | head hstep _ ih => exact h.closed _ (.inr ih) _ hstep

/-- The dependents are listed in the order in which they have to stop. -/
theorem transitiveDependents_spec (hdeclared : file.Declared) (hacyclic : Acyclic file.startAfter) (key : String) :
    (transitiveDependents file key).Nodup ∧
    (∀ k, k ∈ transitiveDependents file key ↔ Relation.TransGen (Waits file.startAfter) k key) ∧
    (transitiveDependents file key).Pairwise fun a b => ¬ Relation.TransGen (Waits file.startAfter) b a := by
  obtain ⟨order, horder, hperm, hfirst⟩ := topoOrder_spec hdeclared hacyclic
  have hlist : transitiveDependents file key =
      order.reverse.filter (· ∈ dependentsLoop file (file.containers.length + 1) [key] ∅) := by
    rw [transitiveDependents, horder]
  have hnodup : order.Nodup := hperm.nodup_iff.mpr file.distinct
  have hmem : ∀ k, k ∈ order ↔ k ∈ file.keys := fun k => hperm.mem_iff
  have hclosed : ∀ k ∈ order, ∀ d ∈ file.startAfter k, d ∈ order := fun k _ d hd => (hmem d).mpr (hdeclared k d hd)
  rw [hlist]
  refine ⟨(List.nodup_reverse.mpr hnodup).filter _, fun k => ?_, ?_⟩
  · rw [List.mem_filter, List.mem_reverse, decide_eq_true_eq, mem_dependentsLoop]
    refine and_iff_right_of_imp fun hpath => ?_
    obtain ⟨d, hstep, -⟩ := Relation.TransGen.head'_iff.mp hpath
    exact (hmem k).mpr (Project.mem_keys_of_startAfter hstep)
  · refine List.Pairwise.filter _ (List.pairwise_reverse.mpr ?_)
    refine List.pairwise_iff_getElem.mpr fun i j hi hj hij hpath => ?_
    -- `a = order[j]` stops before `b = order[i]`, and `b` cannot wait for `a`.
    have hlt := (hfirst.idxOf_lt_of_transGen hclosed (List.getElem_mem hi) hpath).2
    rw [hnodup.idxOf_getElem, hnodup.idxOf_getElem] at hlt
    omega

end Reach

end Iii.Compose
