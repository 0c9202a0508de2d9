import Iii.Compose.Dag

/-! A file is accepted when its dependencies are declared and have no cycle.

A visit ends because the path to it has no name twice. What is settled is closed under the
dependencies and holds no cycle (`Settling`): a name is settled after everything it waits for, and
nothing on the path is settled while it is on the path. -/
namespace Iii.Compose
open Lib

namespace Project
variable {file : Project}

/-- Everything that is declared or waited for. -/
def names (file : Project) : Finset String := (file.keys ++ file.keys.flatMap file.startAfter).toFinset

theorem nodup_keys (file : Project) : file.keys.Nodup := file.distinct

theorem startAfter_of_mem {key : String} {startAfter : List String} (h : (key, startAfter) ∈ file.containers) :
    file.startAfter key = startAfter := by
  rw [Project.startAfter, Assoc.get?_of_mem file.distinct h]
  rfl

theorem startAfter_of_not_mem {key : String} (h : key ∉ file.keys) : file.startAfter key = [] := by
  rw [Project.startAfter, Assoc.get?_eq_none_iff.mpr h]
  rfl

theorem mem_keys_of_startAfter {key dependency : String} (h : dependency ∈ file.startAfter key) : key ∈ file.keys := by
  by_contra hkey
  rw [startAfter_of_not_mem hkey] at h
  cases h

theorem mem_containers {key : String} (h : key ∈ file.keys) : (key, file.startAfter key) ∈ file.containers := by
  obtain ⟨⟨key', startAfter⟩, hmem, rfl⟩ := List.mem_map.mp h
  rw [startAfter_of_mem hmem]
  exact hmem

theorem mem_names_of_key {key : String} (h : key ∈ file.keys) : key ∈ file.names :=
  List.mem_toFinset.mpr (List.mem_append_left _ h)

theorem mem_names_of_startAfter {key dependency : String} (h : dependency ∈ file.startAfter key) :
    dependency ∈ file.names :=
  List.mem_toFinset.mpr (List.mem_append_right _ (List.mem_flatMap.mpr ⟨key, mem_keys_of_startAfter h, h⟩))

theorem card_names_lt : file.names.card < file.depth :=
  Nat.lt_succ_of_le (List.toFinset_card_le _)

end Project

/-- What a visit finds and leaves: the names that are done with, and the path it came along. -/
structure Settling (file : Project) (settled : Finset String) (onPath : List String) : Prop where
  closed : ∀ k ∈ settled, ∀ d ∈ file.startAfter k, d ∈ settled
  acyclic : ∀ k ∈ settled, ¬ Relation.TransGen (Waits file.startAfter) k k
  apart : ∀ k ∈ onPath, k ∉ settled
  nodup : onPath.Nodup
  chain : onPath.IsChain (Waits file.startAfter)
  named : ∀ k ∈ onPath, k ∈ file.names

section Visit
variable {file : Project} {settled : Finset String} {onPath : List String} {key : String}

theorem Settling.reached (h : Settling file settled onPath) {k d : String} (hk : k ∈ settled)
    (hpath : Relation.ReflTransGen (Waits file.startAfter) k d) : d ∈ settled := by
  induction hpath with
  | refl => exact hk
  | tail _ hstep ih => exact h.closed _ ih _ hstep

theorem Settling.push (h : Settling file settled onPath) (hkey : key ∈ file.names) (hsettled : key ∉ settled)
    (hpath : key ∉ onPath) (hlast : ∀ last, onPath.getLast? = some last → key ∈ file.startAfter last) :
    Settling file settled (onPath ++ [key]) where
  closed := h.closed
  acyclic := h.acyclic
  apart k hk := by
    rcases List.mem_append.mp hk with hk | hk
    · exact h.apart k hk
    · rwa [List.mem_singleton.mp hk]
  nodup := List.nodup_append.mpr ⟨h.nodup, List.nodup_singleton _, fun a ha b hb => by
    rw [List.mem_singleton.mp hb]
    exact fun heq => hpath (heq ▸ ha)⟩
  chain := by
    refine h.chain.append (List.isChain_singleton _) ?_
    intro last hlast' first hfirst
    cases Option.some.inj hfirst
    exact hlast last hlast'
  named k hk := by
    rcases List.mem_append.mp hk with hk | hk
    · exact h.named k hk
    · rwa [List.mem_singleton.mp hk]

/-- The key is done with after all it waits for. -/
theorem Settling.settle (h : Settling file settled (onPath ++ [key])) (hdeps : ∀ d ∈ file.startAfter key, d ∈ settled) :
    Settling file (insert key settled) onPath where
  closed k hk d hd := by
    rcases Finset.mem_insert.mp hk with rfl | hk
    · exact Finset.mem_insert_of_mem (hdeps d hd)
    · exact Finset.mem_insert_of_mem (h.closed k hk d hd)
  acyclic k hk hcycle := by
    rcases Finset.mem_insert.mp hk with rfl | hk
    · obtain ⟨d, hstep, hpath⟩ := Relation.TransGen.head'_iff.mp hcycle
      exact h.apart k (List.mem_append_right _ (List.mem_singleton_self k)) (h.reached (hdeps d hstep) hpath)
    · exact h.acyclic k hk hcycle
  apart k hk hmem := by
    rcases Finset.mem_insert.mp hmem with rfl | hmem
    · exact (List.nodup_append.mp h.nodup).2.2 k hk k (List.mem_singleton_self k) rfl
    · exact h.apart k (List.mem_append_left _ hk) hmem
  nodup := (List.nodup_append.mp h.nodup).1
  chain := h.chain.left_of_append
  named k hk := h.named k (List.mem_append_left _ hk)

/-- The path from where the key stands on it, back to the key. -/
theorem Settling.cycle (h : Settling file settled onPath) (hpath : key ∈ onPath)
    (hlast : ∀ last, onPath.getLast? = some last → key ∈ file.startAfter last) :
    IsCycle file.startAfter (onPath.drop (onPath.idxOf key) ++ [key]) := by
  obtain ⟨front, back, rfl, hfront⟩ := List.eq_append_cons_of_mem hpath
  have hdrop : (front ++ key :: back).drop ((front ++ key :: back).idxOf key) = key :: back := by
    rw [List.idxOf_append_of_notMem hfront, List.idxOf_cons_self, Nat.add_zero, List.drop_left]
  rw [hdrop]
  refine ⟨?_, ?_, ?_⟩
  · refine h.chain.right_of_append.append (List.isChain_singleton _) ?_
    intro last hlast' first hfirst
    cases Option.some.inj hfirst
    refine hlast last ?_
    rw [List.getLast?_append, hlast']
    rfl
  · simp
  · rw [List.getLast?_concat]
    rfl

/-- A visit settles the name, or reports a cycle. -/
def Visited (file : Project) (settled : Finset String) (onPath deps : List String)
    (result : Except DagError (Finset String × List String)) : Prop :=
  (∃ settled', result = .ok (settled', onPath) ∧ Settling file settled' onPath ∧ settled ⊆ settled' ∧
    ∀ d ∈ deps, d ∈ settled') ∨
  ∃ cycle, result = .error (.dependencyCycle (String.intercalate " -> " cycle)) ∧ IsCycle file.startAfter cycle

/-- One name after the other. -/
theorem visit_loop (depth : Nat) (deps : List String) (h : Settling file settled onPath)
    (hvisit : ∀ d ∈ deps, ∀ settled, Settling file settled onPath →
      Visited file settled onPath [d] (visit file depth d (settled, onPath))) :
    Visited file settled onPath deps (deps.foldlM (fun state d => visit file depth d state) (settled, onPath)) := by
  induction deps generalizing settled with
  | nil => exact .inl ⟨settled, rfl, h, subset_rfl, fun _ hd => nomatch hd⟩
  | cons d rest ih =>
    rw [List.foldlM_cons]
    rcases hvisit d List.mem_cons_self settled h with ⟨settled₁, hok, h₁, hsub, hd⟩ | ⟨cycle, herror, hcycle⟩
    · rw [hok]
      rcases ih h₁ fun d hd => hvisit d (List.mem_cons_of_mem _ hd) with ⟨settled₂, hok₂, h₂, hsub₂, hrest⟩ | hcycle
      · refine .inl ⟨settled₂, hok₂, h₂, hsub.trans hsub₂, fun d' hd' => ?_⟩
        rcases List.mem_cons.mp hd' with rfl | hd'
        · exact hsub₂ (hd d' (List.mem_singleton_self d'))
        · exact hrest d' hd'
      · exact .inr hcycle
    · rw [herror]
      exact .inr ⟨cycle, rfl, hcycle⟩

theorem visit_visited {depth : Nat} (h : Settling file settled onPath) (hkey : key ∈ file.names)
    (hlast : ∀ last, onPath.getLast? = some last → key ∈ file.startAfter last)
    (hdepth : file.names.card < depth + onPath.length) :
    Visited file settled onPath [key] (visit file depth key (settled, onPath)) := by
  induction depth generalizing settled onPath key with
  | zero =>
    -- The path cannot be longer than there are names.
    have hle : onPath.length ≤ file.names.card := by
      rw [← List.toFinset_card_of_nodup h.nodup]
      exact Finset.card_le_card fun k hk => h.named k (List.mem_toFinset.mp hk)
    omega
  | succ depth ih =>
    by_cases hsettled : key ∈ settled
    · refine .inl ⟨settled, by rw [visit, if_pos hsettled], h, subset_rfl, fun d hd => ?_⟩
      rwa [List.mem_singleton.mp hd]
    · by_cases hpath : key ∈ onPath
      · exact .inr ⟨_, by rw [visit, if_neg hsettled, if_pos hpath], h.cycle hpath hlast⟩
      · have hpush := h.push hkey hsettled hpath hlast
        have hloop := visit_loop depth (file.startAfter key) hpush fun d hd settled hsettling => by
          refine ih hsettling (Project.mem_names_of_startAfter hd) ?_ ?_
          · intro last hlast'
            rw [List.getLast?_concat] at hlast'
            cases hlast'
            exact hd
          · rw [List.length_append, List.length_singleton]
            omega
        rw [visit, if_neg hsettled, if_neg hpath]
        rcases hloop with ⟨settled', hok, h', hsub, hdeps⟩ | ⟨cycle, herror, hcycle⟩
        · rw [hok]
          refine .inl ⟨insert key settled', ?_, h'.settle hdeps, hsub.trans (Finset.subset_insert _ _), ?_⟩
          · show Except.ok (insert key settled', (onPath ++ [key]).dropLast) = _
            rw [List.dropLast_concat]
          · intro d hd
            rw [List.mem_singleton.mp hd]
            exact Finset.mem_insert_self _ _
        · rw [herror]
          exact .inr ⟨cycle, rfl, hcycle⟩

end Visit

/-! ### Validation -/

/-- Everything that is waited for is declared. -/
def Project.Declared (file : Project) : Prop := ∀ k, ∀ d ∈ file.startAfter k, d ∈ file.keys

section Validate
variable {file : Project}

theorem detectCycle_cases (file : Project) :
    (detectCycle file = .ok () ∧ ∀ k ∈ file.keys, ¬ Relation.TransGen (Waits file.startAfter) k k) ∨
    ∃ cycle, detectCycle file = .error (.dependencyCycle (String.intercalate " -> " cycle)) ∧
      IsCycle file.startAfter cycle := by
  have hstart : Settling file ∅ [] :=
    ⟨(fun _ hk => absurd hk (Finset.notMem_empty _)), (fun _ hk => absurd hk (Finset.notMem_empty _)),
      (fun _ hk => nomatch hk), .nil, .nil, fun _ hk => nomatch hk⟩
  have hloop := visit_loop file.depth file.keys hstart fun k hk settled hsettling =>
    visit_visited hsettling (Project.mem_names_of_key hk) nofun (by rw [List.length_nil]; exact Project.card_names_lt)
  unfold detectCycle
  rcases hloop with ⟨settled, hok, h, -, hkeys⟩ | ⟨cycle, herror, hcycle⟩
  · rw [hok]
    exact .inl ⟨rfl, fun k hk => h.acyclic k (hkeys k hk)⟩
  · rw [herror]
    exact .inr ⟨cycle, rfl, hcycle⟩

/-- A name that is not declared waits for nothing, so it is on no cycle. -/
theorem acyclic_of_keys (h : ∀ k ∈ file.keys, ¬ Relation.TransGen (Waits file.startAfter) k k) :
    Acyclic file.startAfter := by
  intro k hcycle
  obtain ⟨d, hstep, -⟩ := Relation.TransGen.head'_iff.mp hcycle
  exact h k (Project.mem_keys_of_startAfter hstep) hcycle

theorem declared_iff : file.Declared ↔ forM file.containers (checkDeclared file) = .ok () := by
  rw [forM_eq_ok]
  constructor
  · rintro h ⟨key, startAfter⟩ hmem
    refine forM_eq_ok.mpr fun d hd => ensure_eq_ok.mpr (h key d ?_)
    rw [Project.startAfter_of_mem hmem]
    exact hd
  · intro h k d hd
    exact ensure_eq_ok.mp (forM_eq_ok.mp (h _ (Project.mem_containers (Project.mem_keys_of_startAfter hd))) d hd)

theorem validateDependencies_iff :
    validateDependencies file = .ok () ↔ file.Declared ∧ Acyclic file.startAfter := by
  rw [validateDependencies, bind_eq_ok]
  constructor
  · rintro ⟨⟨⟩, hdeclared, hdetect⟩
    refine ⟨declared_iff.mpr hdeclared, ?_⟩
    rcases detectCycle_cases file with ⟨-, hacyclic⟩ | ⟨cycle, herror, -⟩
    · exact acyclic_of_keys hacyclic
    · rw [hdetect] at herror
      cases herror
  · rintro ⟨hdeclared, hacyclic⟩
    refine ⟨(), declared_iff.mp hdeclared, ?_⟩
    rcases detectCycle_cases file with ⟨hok, -⟩ | ⟨cycle, -, hcycle⟩
    · exact hok
    · exact absurd hacyclic hcycle.not_acyclic

/-- What is reported is there: a name that is not declared, or a cycle. -/
theorem validateDependencies_error {e : DagError} (h : validateDependencies file = .error e) :
    (∃ key dependency, e = .unknownDependency key dependency ∧ dependency ∈ file.startAfter key ∧
      dependency ∉ file.keys) ∨
    ∃ cycle, e = .dependencyCycle (String.intercalate " -> " cycle) ∧ IsCycle file.startAfter cycle := by
  cases hchecks : forM file.containers (checkDeclared file) with
  | error e' =>
    rw [validateDependencies, hchecks] at h
    cases h
    obtain ⟨⟨key, startAfter⟩, hmem, herror⟩ := forM_eq_error hchecks
    obtain ⟨dependency, hd, herror⟩ := forM_eq_error herror
    refine .inl ⟨key, dependency, ?_, ?_, ?_⟩
    · unfold ensure at herror
      split at herror
      · cases herror
      · exact (Except.error.inj herror).symm
    · rw [Project.startAfter_of_mem hmem]
      exact hd
    · intro hdeclared
      rw [ensure_eq_ok.mpr hdeclared] at herror
      cases herror
  | ok u =>
    rw [validateDependencies, hchecks] at h
    replace h : detectCycle file = .error e := h
    rcases detectCycle_cases file with ⟨hok, -⟩ | ⟨cycle, herror, hcycle⟩
    · rw [h] at hok
      cases hok
    · rw [h] at herror
      exact .inr ⟨cycle, Except.error.inj herror, hcycle⟩

end Validate

end Iii.Compose
