import Iii.Compose.Listed

/-! A dependency plan in any order of the request.

The arguments of a request may come in any order, and so may the nodes of the graphs they
resolve to. `plan_any_order` says that this changes neither whether there is a plan nor which
containers, versions and aliases it has, and what a plan is: dependencies first, only what the
request reaches, no container that is already declared (unless it was requested or the request
is an update), and every name of a package led to one container. One container for one package
is more than the planner aims at: two requested workers may run one package under two names,
and each keeps the edges that name it (`console_and_shell`). -/
namespace Iii.Compose
open Lib

/-! ### Where a candidate goes -/

section Homes
variable {F : Type}

/-- The container of a candidate, when a name of a registry is served by `serve`. -/
def Candidate.home (serve : String → String → String) (c : Candidate F) : String :=
  match c.package with
  | some package => serve package.registry c.declaration.key
  | none => c.declaration.key

/-- The containers that a candidate waits for. -/
def Candidate.waits (serve : String → String → String) (c : Candidate F) : List String :=
  match c.package with
  | some package => c.declaration.startAfter.map (serve package.registry)
  | none => c.declaration.startAfter

theorem retarget_eq {startAfter edges : List String} {registry key originalKey : String}
    {targets : SortedMap Identity String} (h : retarget startAfter registry targets key originalKey = .ok edges) :
    edges = startAfter.map (target targets registry) := by
  have hmap : edges.map id = startAfter.map (target targets registry) := mapM_map_eq h fun dependency edge hedge =>
    (Except.ok.inj (ensure_bind_eq_ok.mp hedge).2).symm
  rwa [List.map_id] at hmap

theorem explicitly_startAfter (explicit : Option (NewContainer F)) (w : NewContainer F) :
    (explicitly explicit w).startAfter = w.startAfter ++ ((explicit.map (·.startAfter)).getD []) := by
  cases explicit with
  | none => exact (List.append_nil _).symm
  | some _ => rfl

variable {asked : List (NewContainer F)} {expanded : List (Candidate F)} (h : Expanded asked expanded)
variable {scope : Scope F} (hscope : scope.requested = requestedBy asked) {selected : SortedMap Identity String}
include h hscope

theorem requested_isSome {key : String} : (scope.requested.get? key).isSome ↔ key ∈ asked.map (·.key) := by
  rw [hscope, requestedBy_isSome h.distinct]

/-- A requested name stands for the requested container, in every registry. -/
theorem target_requested {registry name : String} (hname : name ∈ asked.map (·.key)) :
    target (scope.targetsOf selected expanded) registry name = name := by
  by_cases hmem : ∃ c ∈ expanded, ∃ p, c.package = some p ∧ p.registry = registry ∧ c.declaration.key = name
  · obtain ⟨c, hc, p, hp, rfl, rfl⟩ := hmem
    rw [target_of_mem h hscope hc hp, Scope.targetKey, if_pos ((requested_isSome h hscope).mpr hname)]
  · apply target_of_absent h hscope
    intro c hc p hp hregistry hkey
    exact hmem ⟨c, hc, p, hp, hregistry, hkey⟩

theorem home_root {c : Candidate F} (hc : c ∈ expanded) (hroot : c.root = true) :
    c.home (target (scope.targetsOf selected expanded)) = c.declaration.key := by
  unfold Candidate.home
  cases c.package with
  | none => rfl
  | some package => exact target_requested h hscope (h.named c hc hroot)

/-! ### What it contributes there -/

variable {semver : Semver}

/-- The three kinds of contributions. -/
inductive Contributes (scope : Scope F) (serve : String → String → String) (c : Candidate F) : Part F → Prop
  | copy (hroot : c.root = false) (hrequested : (scope.requested.get? (c.home serve)).isSome) :
    Contributes scope serve c (.copy (c.home serve) (c.waits serve))
  | reused (hfree : scope.requested.get? (c.home serve) = none) (hupdate : scope.update = none)
    (hexisting : (scope.existing.get? (c.home serve)).isSome) : Contributes scope serve c .reused
  | declared (w : NewContainer F) (lock : Option String) (hkey : w.key = c.home serve)
    (hedges : w.startAfter = c.waits serve ++ (((scope.explicit c).map (·.startAfter)).getD []))
    (hown : c.root = true ∨ c.root = false ∧ scope.requested.get? (c.home serve) = none ∧
      (scope.update = none → scope.existing.get? (c.home serve) = none)) :
    Contributes scope serve c (.declared w lock)

theorem shareOf_contributes {c : Candidate F} (hc : c ∈ expanded) {s : Share F}
    (hs : scope.shareOf semver (scope.targetsOf selected expanded) c = .ok s) :
    Contributes scope (target (scope.targetsOf selected expanded)) c s.part := by
  have hhome := @home_root F asked expanded h scope hscope selected c hc
  unfold Scope.shareOf at hs
  cases hp : c.package with
  | none =>
    rw [hp] at hs
    cases hs
    have hroot : c.root = true := by
      by_contra hroot
      obtain ⟨p, hpackage, -⟩ := h.nodes c hc (Bool.eq_false_iff.mpr hroot)
      rw [hp] at hpackage
      cases hpackage
    refine .declared _ _ ?_ ?_ (.inl hroot)
    · rw [explicitly_key, hhome hroot]
    · rw [explicitly_startAfter, Candidate.waits, hp]
  | some package =>
    have hkey : target (scope.targetsOf selected expanded) package.registry c.declaration.key =
        c.home (target (scope.targetsOf selected expanded)) := by rw [Candidate.home, hp]
    rw [hp] at hs
    dsimp only at hs
    cases hpart : scope.partOf semver (scope.targetsOf selected expanded) c package with
    | error e =>
      rw [hpart] at hs
      cases hs
    | ok part =>
      rw [hpart] at hs
      cases hs
      unfold Scope.partOf at hpart
      dsimp only at hpart
      rw [hkey] at hpart
      split at hpart
      · rename_i hcopy
        obtain ⟨edges, hedges, hpart⟩ := bind_eq_ok.mp hpart
        cases hpart
        have hwaits : edges = c.waits (target (scope.targetsOf selected expanded)) := by
          rw [retarget_eq hedges, Candidate.waits, hp]
        rw [hwaits]
        exact .copy hcopy.1 hcopy.2
      · rename_i hcopy
        obtain ⟨found, hfound, hpart⟩ := bind_eq_ok.mp hpart
        unfold Scope.sourceOf at hfound
        have hfree : (scope.explicit c).isSome = false → c.root = false ∧
            scope.requested.get? (c.home (target (scope.targetsOf selected expanded))) = none := by
          intro hexplicit
          have hroot : c.root = false := by
            by_contra hroot
            rw [Bool.not_eq_false] at hroot
            have hsome := (requested_isSome h hscope).mpr (h.named c hc hroot)
            rw [Scope.explicit, if_pos hroot, hsome] at hexplicit
            cases hexplicit
          refine ⟨hroot, ?_⟩
          rw [← Option.not_isSome_iff_eq_none]
          exact fun hsome => hcopy ⟨hroot, hsome⟩
        have hdeclared : ∀ source lock, found = some (source, lock) → (c.root = true ∨ c.root = false ∧
            scope.requested.get? (c.home (target (scope.targetsOf selected expanded))) = none ∧
            (scope.update = none → scope.existing.get? (c.home (target (scope.targetsOf selected expanded))) = none)) →
            Contributes scope (target (scope.targetsOf selected expanded)) c part := by
          intro source lock hsome hown
          subst hsome
          obtain ⟨edges, hedges, hpart⟩ := bind_eq_ok.mp hpart
          cases hpart
          refine .declared _ _ (explicitly_key _ _) ?_ hown
          rw [explicitly_startAfter, retarget_eq hedges, Candidate.waits, hp]
        split at hfound
        · rename_i hexplicit
          cases hfound
          refine hdeclared _ _ rfl (.inl ?_)
          by_contra hroot
          rw [Scope.explicit, if_neg hroot] at hexplicit
          cases hexplicit
        · rename_i hexplicit
          obtain ⟨hroot, hrequested⟩ := hfree (Bool.eq_false_iff.mpr hexplicit)
          split at hfound
          · rename_i hexisting hupdate
            cases hfound
            cases hpart
            exact .reused hrequested hupdate (hexisting ▸ rfl)
          · rename_i update hexisting hupdate
            cases hfollow : update.follow semver (c.home (target (scope.targetsOf selected expanded))) _ package with
            | error e =>
              rw [hfollow] at hfound
              cases hfound
            | ok followed =>
              rw [hfollow] at hfound
              cases hfound
              refine hdeclared _ _ rfl (.inr ⟨hroot, hrequested, fun hnone => ?_⟩)
              rw [hupdate] at hnone
              cases hnone
          · rename_i hexisting
            cases hfound
            exact hdeclared _ _ rfl (.inr ⟨hroot, hrequested, fun _ => hexisting⟩)

end Homes

/-! ### Plans -/

section Plans
variable {F : Type} {asked asked' : List (NewContainer F)} {expanded expanded' : List (Candidate F)}

/-- How the names of packages are served: every name of a registry by one container. -/
structure Serves (asked : List (NewContainer F)) (expanded : List (Candidate F)) (plan : Plan F)
    (serve : String → String → String) : Prop where
  /-- A requested name is served by the requested container. -/
  requested : ∀ registry, ∀ worker ∈ asked, serve registry worker.key = worker.key
  /-- The other names of one package are served by one container. -/
  shared : ∀ c ∈ expanded, ∀ c' ∈ expanded, ∀ p ∈ c.package, ∀ p' ∈ c'.package, p.identity = p'.identity →
    c.declaration.key ∉ asked.map (·.key) → c'.declaration.key ∉ asked.map (·.key) →
      serve p.registry c.declaration.key = serve p'.registry c'.declaration.key
  /-- A name that no graph resolved stands for itself. -/
  others : ∀ registry name, (∀ c ∈ expanded, ∀ p ∈ c.package, p.registry = registry → c.declaration.key ≠ name) →
    serve registry name = name
  /-- A container waits for what serves the names that its candidates depend on, and for what
  its request says. -/
  edges : ∀ w ∈ plan.containers, ∀ e, e ∈ w.startAfter ↔
    (∃ c ∈ expanded, c.home serve = w.key ∧ e ∈ c.waits serve) ∨
      ∃ worker ∈ asked, worker.key = w.key ∧ e ∈ worker.startAfter

/-- A plan as the request, the graphs and the compose file call for it. -/
structure Plan.Sound (asked : List (NewContainer F)) (expanded : List (Candidate F))
    (existing : SortedMap String Package) (existingKeys : Finset String) (update : Option UpdateScope)
    (plan : Plan F) : Prop where
  once : (plan.containers.map (·.key)).Nodup
  ordered : ∀ before w after, plan.containers = before ++ w :: after → ∀ dep ∈ w.startAfter,
    dep ∈ plan.containers.map (·.key) → dep ∈ before.map (·.key)
  reached : ∀ w ∈ plan.containers, ∃ worker ∈ asked,
    Relation.ReflTransGen (fun a b => ∃ v ∈ plan.containers, v.key = a ∧ b ∈ v.startAfter) worker.key w.key
  served : ∃ serve, Serves asked expanded plan serve
  kept : update = none → ∀ w ∈ plan.containers, w.key ∉ asked.map (·.key) →
    w.key ∉ existingKeys ∧ existing.get? w.key = none

/-- Both stop, or both have the same plan. -/
def SameOutcome (a b : Except ComposeError (Plan F)) : Prop :=
  (∀ plan, a = .ok plan → ∃ plan', b = .ok plan' ∧ plan.Same plan') ∧
    ∀ plan', b = .ok plan' → ∃ plan, a = .ok plan ∧ plan.Same plan'

/-! ### Containers that are declared already -/

/-- Only what is declared or requested runs a package already. -/
theorem ownersOf_keys {existing : SortedMap String Package} {roots : List (String × Package)} {identity : Identity}
    {choices : SortedMap String Package} {key : String} (hget : (ownersOf existing roots).get? identity = some choices)
    (hkey : (choices.get? key).isSome) : (existing.get? key).isSome ∨ key ∈ roots.map (·.1) := by
  have hadd : ∀ (owners : Owners) (e : String × Package) identity choices key,
      (owners.add e).get? identity = some choices → (choices.get? key).isSome →
        (∃ before, owners.get? identity = some before ∧ (before.get? key).isSome) ∨ key = e.1 := by
    intro owners e identity choices key hget hkey
    rw [Owners.add, SortedMap.get?_insert] at hget
    split at hget
    · rename_i hid
      cases hget
      rw [SortedMap.get?_insert] at hkey
      split at hkey
      · rename_i heq
        exact .inr heq.symm
      · subst hid
        cases hbefore : owners.get? e.2.identity with
        | none =>
          rw [hbefore] at hkey
          cases hkey
        | some before =>
          rw [hbefore] at hkey
          exact .inl ⟨before, rfl, hkey⟩
    · exact .inl ⟨choices, hget, hkey⟩
  have hfold : ∀ (l : List (String × Package)) (owners : Owners) identity choices key,
      (l.foldl Owners.add owners).get? identity = some choices → (choices.get? key).isSome →
        (∃ before, owners.get? identity = some before ∧ (before.get? key).isSome) ∨ key ∈ l.map (·.1) := by
    intro l
    induction l with
    | nil => exact fun owners identity choices key hget hkey => .inl ⟨choices, hget, hkey⟩
    | cons e rest ih =>
      intro owners identity choices key hget hkey
      rw [List.map_cons, List.mem_cons]
      rcases ih (owners.add e) identity choices key hget hkey with ⟨before, hbefore, hin⟩ | hin
      · exact (hadd owners e identity before key hbefore hin).imp_right .inl
      · exact .inr (.inr hin)
  rcases hfold roots _ identity choices key hget hkey with ⟨before, hbefore, hin⟩ | hin
  · rcases hfold existing.entries .empty identity before key hbefore hin with ⟨_, hempty, -⟩ | hin
    · cases hempty
    · exact .inl (SortedMap.mem_keys_iff.mp hin)
  · exact .inr hin

variable {existing : SortedMap String Package} {existingKeys : Finset String} {update : Option UpdateScope}

/-- A package that nothing declared runs is given a container of its own, under a key that is
still free. -/
theorem target_fresh (h : Expanded asked expanded) {selected : SortedMap Identity String}
    (hchoose : (scopeOf asked expanded existing existingKeys none).choose expanded = .ok selected)
    {c : Candidate F} {p : Package} (hc : c ∈ expanded) (hp : c.package = some p) {key : String}
    (hkey : target ((scopeOf asked expanded existing existingKeys none).targetsOf selected expanded) p.registry
      c.declaration.key = key)
    (hfree : key ∉ asked.map (·.key)) (hexisting : existing.get? key = none) : key ∉ existingKeys := by
  have hscope : (scopeOf asked expanded existing existingKeys none).requested = requestedBy asked := rfl
  rw [target_of_mem h hscope hc hp, Scope.targetKey] at hkey
  split at hkey
  · rename_i hrequested
    rw [hkey] at hrequested
    exact absurd ((requested_isSome h hscope).mp hrequested) hfree
  · rename_i hrequested
    rw [Option.not_isSome_iff_eq_none] at hrequested
    obtain ⟨group, chosen, -, -, hchosen, hselected⟩ :=
      choose_spec hchoose hc (h.node_of_free hscope hc hp hrequested).1 hp hrequested
    rw [hselected, Option.getD_some] at hkey
    subst hkey
    unfold Chosen at hchosen
    split at hchosen
    · rename_i hdeclared
      have hget : existing.get? group.first.node.name ≠ none := fun hnone => by
        have := hdeclared.2
        rw [show (scopeOf asked expanded existing existingKeys none).existing = existing from rfl, hnone] at this
        cases this
      exact absurd (hchosen ▸ hexisting) hget
    · rcases hchosen with hcompatible | ⟨-, -, hkeys, -, heq⟩
      · have hmem : chosen ∈ (scopeOf asked expanded existing existingKeys none).compatible p.identity
            group.first.node := by
          rw [hcompatible]
          exact List.mem_singleton_self _
        unfold Scope.compatible at hmem
        rw [if_neg (fun h => nomatch h.2)] at hmem
        obtain ⟨e, he, rfl⟩ := List.mem_map.mp hmem
        have hchoice := SortedMap.mem_entries_iff.mp (List.mem_of_mem_filter he)
        unfold Scope.choices at hchoice
        cases howners : (scopeOf asked expanded existing existingKeys none).owners.get? p.identity with
        | none =>
          rw [howners] at hchoice
          cases hchoice
        | some choices =>
          rw [howners, Option.getD_some] at hchoice
          have hsome : (choices.get? e.1).isSome := by
            rw [hchoice]
            rfl
          rcases ownersOf_keys howners hsome with hin | hin
          · rw [hexisting] at hin
            cases hin
          · obtain ⟨⟨key, package⟩, hroot, heq⟩ := List.mem_map.mp hin
            obtain ⟨c', hc', hroot', -, hkey'⟩ := mem_rootPackages.mp hroot
            refine absurd (h.named c' hc' hroot') ?_
            rw [hkey', show key = e.1 from heq]
            exact hfree
      · rw [heq]
        exact hkeys

/-! ### What a plan is -/

variable [DecidableEq F] {semver : Semver}

/-- A run of the planner, part by part. -/
structure Planned (semver : Semver) (asked : List (NewContainer F)) (expanded : List (Candidate F)) (scope : Scope F)
    (selected : SortedMap Identity String) (shares : List (Share F)) (b : Building F) (l : List String) : Prop where
  chosen : scope.choose expanded = .ok selected
  shared : expanded.mapM (scope.shareOf semver (scope.targetsOf selected expanded)) = .ok shares
  built : Built shares b
  listed : settle (edgesOf b.containers) (b.reached asked).length (b.reached asked) = .ok l

theorem exists_planned {plan : Plan F}
    (hplan : planResolved semver asked expanded existing existingKeys update = .ok plan) :
    ∃ selected shares b l, Planned semver asked expanded (scopeOf asked expanded existing existingKeys update)
      selected shares b l ∧ b.planOf asked l = plan := by
  obtain ⟨selected, hchoose, hplan⟩ := bind_eq_ok.mp hplan
  obtain ⟨b, hplace, hfinish⟩ := bind_eq_ok.mp hplan
  obtain ⟨shares, hshares, hrun⟩ := (foldlM_eq_ok_iff_mapM fun b c b' => place_eq_ok _ _ _).mp hplace
  have hbuilt := (foldlM_take_spec built_start (fun _ h => nomatch h) hrun).2
  obtain ⟨l, hl, hplan⟩ := (finish_eq_ok hbuilt.listed).mp hfinish
  exact ⟨selected, shares, b, l, ⟨hchoose, hshares, hbuilt, hl⟩, hplan⟩

section Planned
variable {scope : Scope F} {selected : SortedMap Identity String} {shares : List (Share F)} {b : Building F}
  {l : List String} (hplanned : Planned semver asked expanded scope selected shares b l)
  (h : Expanded asked expanded) (hscope : scope.requested = requestedBy asked)
include hplanned h hscope

/-- Every container of the plan is some candidate's own declaration. -/
theorem declared_of_mem {w : NewContainer F} (hw : w ∈ (b.planOf asked l).containers) :
    ∃ s ∈ shares, ∃ c ∈ expanded, ∃ first lock, s.part = .declared first lock ∧ first.key = w.key ∧
      Contributes scope (target (scope.targetsOf selected expanded)) c s.part := by
  have hget := ((mem_planOf hplanned.built.listed hplanned.listed).mp hw).2
  rw [hplanned.built.containers] at hget
  obtain ⟨first, hfirst, -⟩ := Option.map_eq_some_iff.mp hget
  obtain ⟨s, hs, hdeclares⟩ := List.exists_of_findSome?_eq_some hfirst
  obtain ⟨hkey, lock, hpart⟩ := Part.declares_key hdeclares
  obtain ⟨c, hc, hshare⟩ := mapM_mem_right hplanned.shared hs
  exact ⟨s, hs, c, hc, first, lock, hpart, hkey, shareOf_contributes h hscope hc hshare⟩

/-- A container of the plan was requested, or nothing but an update wrote it into a declared one. -/
theorem home_of_mem {w : NewContainer F} (hw : w ∈ (b.planOf asked l).containers) :
    ∃ c ∈ expanded, c.home (target (scope.targetsOf selected expanded)) = w.key ∧
      (c.root = true ∨ c.root = false ∧ scope.requested.get? w.key = none ∧
        (scope.update = none → scope.existing.get? w.key = none)) := by
  obtain ⟨s, -, c, hc, first, lock, hpart, hkey, hcontributes⟩ := declared_of_mem hplanned h hscope hw
  rw [hpart] at hcontributes
  cases hcontributes with
  | declared _ _ hhome hedges hown =>
    rw [← hhome, hkey] at hown
    exact ⟨c, hc, hhome.symm.trans hkey, hown⟩

theorem edges_planOf {w : NewContainer F} (hw : w ∈ (b.planOf asked l).containers) (e : String) :
    e ∈ w.startAfter ↔
      (∃ c ∈ expanded, c.home (target (scope.targetsOf selected expanded)) = w.key ∧
        e ∈ c.waits (target (scope.targetsOf selected expanded))) ∨
      ∃ worker ∈ asked, worker.key = w.key ∧ e ∈ worker.startAfter := by
  have hget := ((mem_planOf hplanned.built.listed hplanned.listed).mp hw).2
  have hmerged := hplanned.built.containers w.key
  rw [hget] at hmerged
  obtain ⟨first, hfirst, hw'⟩ := Option.map_eq_some_iff.mp hmerged.symm
  have hedges : e ∈ w.startAfter ↔ ∃ s ∈ shares, e ∈ s.part.edges w.key := by
    rw [← hw', mem_sortDedup, hw', edgesTo, List.mem_flatMap]
  rw [hedges]
  constructor
  · rintro ⟨s, hs, he⟩
    obtain ⟨c, hc, hshare⟩ := mapM_mem_right hplanned.shared hs
    have hcontributes := shareOf_contributes h hscope hc hshare
    generalize s.part = part at hcontributes he
    cases hcontributes with
    | copy hroot hrequested =>
      rw [Part.edges] at he
      split at he
      · rename_i hkey
        exact .inl ⟨c, hc, hkey, he⟩
      · cases he
    | reused => cases he
    | declared v lock hkey hedges hown =>
      rw [Part.edges] at he
      split at he
      · rename_i hvw
        rw [hedges, List.mem_append] at he
        rcases he with he | he
        · exact .inl ⟨c, hc, hkey.symm.trans hvw, he⟩
        · cases hexplicit : scope.explicit c with
          | none =>
            rw [hexplicit] at he
            cases he
          | some worker =>
            rw [hexplicit] at he
            rw [Scope.explicit] at hexplicit
            split at hexplicit
            · rename_i hroot
              rw [hscope] at hexplicit
              obtain ⟨hworker, hwc⟩ := (requestedBy_eq_some h.distinct).mp hexplicit
              refine .inr ⟨worker, hworker, ?_, he⟩
              rw [hwc, ← home_root h hscope hc hroot, ← hkey, hvw]
            · cases hexplicit
      · cases he
  · intro hnamed
    rcases hnamed with ⟨c, hc, hhome, he⟩ | ⟨worker, hworker, hkey, he⟩
    · obtain ⟨s, hs, hshare⟩ := mapM_mem hplanned.shared hc
      refine ⟨s, hs, ?_⟩
      have hcontributes := shareOf_contributes h hscope hc hshare
      generalize s.part = part at hcontributes
      cases hcontributes with
      | copy hroot hrequested =>
        rw [Part.edges, if_pos hhome]
        exact he
      | reused hfree hupdate hexisting =>
        -- The container would stay as it is, and then it is not in the plan.
        rw [hhome] at hfree hexisting
        obtain ⟨c', hc', hhome', hown⟩ := home_of_mem hplanned h hscope hw
        rcases hown with hroot | ⟨-, -, hnone⟩
        · have hrequested := (requested_isSome h hscope).mpr (h.named c' hc' hroot)
          rw [← home_root h hscope hc' hroot, hhome', hfree] at hrequested
          cases hrequested
        · rw [hnone hupdate] at hexisting
          cases hexisting
      | declared v lock hkey hedges hown =>
        rw [Part.edges, if_pos (hkey.trans hhome), hedges]
        exact List.mem_append_left _ he
    · obtain ⟨s, hs, c, hc, v, lock, hpart, hvw, hcontributes⟩ := declared_of_mem hplanned h hscope hw
      refine ⟨s, hs, ?_⟩
      rw [hpart] at hcontributes ⊢
      have hrequested : scope.requested.get? w.key = some worker := by
        rw [hscope]
        exact (requestedBy_eq_some h.distinct).mpr ⟨hworker, hkey⟩
      cases hcontributes with
      | declared _ _ hhome hedges hown =>
        rw [← hhome, hvw] at hown
        rcases hown with hroot | ⟨-, hfree, -⟩
        · have hexplicit : scope.explicit c = some worker := by
            rw [Scope.explicit, if_pos hroot, ← home_root h hscope hc hroot, ← hhome, hvw, hrequested]
          rw [Part.edges, if_pos hvw, hedges, hexplicit]
          exact List.mem_append_right _ he
        · rw [hrequested] at hfree
          cases hfree

theorem serves_planOf : Serves asked expanded (b.planOf asked l) (target (scope.targetsOf selected expanded)) where
  requested registry worker hworker := target_requested h hscope (List.mem_map_of_mem hworker)
  shared c hc c' hc' p hp p' hp' hid hfree hfree' := by
    rw [target_of_mem h hscope hc hp, target_of_mem h hscope hc' hp']
    have hnone : scope.requested.get? c.declaration.key = none := by
      rw [← Option.not_isSome_iff_eq_none]
      exact fun hsome => hfree ((requested_isSome h hscope).mp hsome)
    have hnone' : scope.requested.get? c'.declaration.key = none := by
      rw [← Option.not_isSome_iff_eq_none]
      exact fun hsome => hfree' ((requested_isSome h hscope).mp hsome)
    obtain ⟨group, key, -, -, -, hkey⟩ :=
      choose_spec hplanned.chosen hc (h.node_of_free hscope hc hp hnone).1 hp hnone
    rw [Scope.targetKey, Scope.targetKey, hnone, hnone', ← hid, hkey]
    rfl
  others registry name habsent := target_of_absent h hscope habsent
  edges w hw e := edges_planOf hplanned h hscope hw e

end Planned

theorem plan_sound (h : Expanded asked expanded) {plan : Plan F}
    (hplan : planResolved semver asked expanded existing existingKeys update = .ok plan) :
    plan.Sound asked expanded existing existingKeys update := by
  obtain ⟨selected, shares, b, l, hplanned, rfl⟩ := exists_planned hplan
  have hlisted := hplanned.built.listed
  refine ⟨planOf_once hlisted hplanned.listed, fun before w after hsplit dep hdep hmem => ?_,
    fun w hw => planOf_reached hlisted hplanned.listed hw, ⟨_, serves_planOf hplanned h rfl⟩, ?_⟩
  · exact planOf_ordered hlisted hplanned.listed hsplit hdep hmem
  · intro hupdate w hw hfree
    subst hupdate
    obtain ⟨c, hc, hhome, hown⟩ := home_of_mem hplanned h rfl hw
    rcases hown with hroot | ⟨hroot, -, hexisting⟩
    · rw [← hhome, home_root h rfl hc hroot] at hfree
      exact absurd (h.named c hc hroot) hfree
    · obtain ⟨p, hp, -⟩ := h.nodes c hc hroot
      rw [Candidate.home, hp] at hhome
      exact ⟨target_fresh h hplanned.chosen hc hp hhome hfree (hexisting rfl), hexisting rfl⟩

/-- The planner, in any order of the request. -/
theorem planResolved_perm (h : Expanded asked expanded) (hasked : asked.Perm asked') (hexpanded : expanded.Perm expanded')
    {plan : Plan F} (hplan : planResolved semver asked expanded existing existingKeys update = .ok plan) :
    ∃ plan', planResolved semver asked' expanded' existing existingKeys update = .ok plan' ∧ plan.Same plan' := by
  obtain ⟨selected, hchoose, hplan⟩ := bind_eq_ok.mp hplan
  obtain ⟨b, hplace, hfinish⟩ := bind_eq_ok.mp hplan
  have hscope : scopeOf asked expanded existing existingKeys update =
      scopeOf asked' expanded' existing existingKeys update := scopeOf_perm h hasked hexpanded
  have htargets : (scopeOf asked expanded existing existingKeys update).targetsOf selected expanded =
      (scopeOf asked expanded existing existingKeys update).targetsOf selected expanded' :=
    targetsOf_perm h rfl hexpanded
  obtain ⟨b', hplace', hsame⟩ := place_perm _ _ _ hexpanded hplace
  have hlisted : ∀ {cs : List (Candidate F)} {scope : Scope F} {targets : SortedMap Identity String} {b : Building F},
      cs.foldlM (scope.place semver targets) .start = .ok b → b.Listed := by
    intro cs scope targets b hrun
    obtain ⟨shares, -, hrun⟩ := (foldlM_eq_ok_iff_mapM fun b c b' => place_eq_ok _ _ _).mp hrun
    exact (foldlM_take_spec built_start (fun _ h => nomatch h) hrun).2.listed
  obtain ⟨plan', hfinish', hplans⟩ := finish_perm (hlisted hplace) (hlisted hplace') hsame hasked hfinish
  refine ⟨plan', bind_eq_ok.mpr ⟨selected, ?_, bind_eq_ok.mpr ⟨b', ?_, hfinish'⟩⟩, hplans⟩
  · rw [← hscope]
    exact choose_perm h hexpanded hchoose
  · rw [← hscope, ← htargets]
    exact hplace'

theorem Plan.Same.symm {p q : Plan F} (h : p.Same q) : q.Same p := ⟨h.1.symm, h.2.symm, h.3.symm⟩

theorem plan_any_order (semver : Semver) (existing : SortedMap String Package) (existingKeys : Finset String)
    (update : Option UpdateScope) {expansions : List (List (Candidate F))} (hdistinct : (asked.map (·.key)).Nodup)
    (hexpansions : List.Forall₂ Expansion asked expansions) (hcanonical : Canonical expansions.flatten)
    (hasked : asked.Perm asked') (hexpanded : expansions.flatten.Perm expanded') :
    SameOutcome (planResolved semver asked expansions.flatten existing existingKeys update)
        (planResolved semver asked' expanded' existing existingKeys update) ∧
      ∀ plan, planResolved semver asked expansions.flatten existing existingKeys update = .ok plan →
        plan.Sound asked expansions.flatten existing existingKeys update := by
  have h := expanded_flatten hdistinct hexpansions hcanonical
  refine ⟨⟨fun plan hplan => planResolved_perm h hasked hexpanded hplan, fun plan' hplan' => ?_⟩,
    fun plan hplan => plan_sound h hplan⟩
  obtain ⟨plan, hplan, hsame⟩ := planResolved_perm (h.perm hasked hexpanded) hasked.symm hexpanded.symm hplan'
  exact ⟨plan, hplan, hsame.symm⟩

end Plans

/-! ### Two workers of one package -/

def releaseOf (name : String) (aliasOf : Option String) : Package :=
  ⟨defaultRegistry, ⟨name, aliasOf, "1.0.0", "binary", some "00ff", none⟩, true⟩

def candidateOf (root : Bool) (name : String) (aliasOf : Option String) (dependencies : List String) : Candidate Unit :=
  ⟨⟨name, .package ("api.workers.iii.dev/" ++ name) (some "1.0.0"), dependencies, ()⟩,
    some (releaseOf name aliasOf), root⟩

def workerOf (name : String) : NewContainer Unit :=
  ⟨name, .package ("api.workers.iii.dev/" ++ name) (some "1.0.0"), [], ()⟩

/-- `1.0.0` is the only version. -/
def oneVersion : Semver where
  Req := Empty
  version text := if text = "1.0.0" then some (1, 0, 0) else none
  requirement _ := none
  accepts requirement _ := nomatch requirement

/-- `app` depends on `console`, an alias of `shell`, and on `shell`; all three are requested. -/
def twoNames : List (List (Candidate Unit)) :=
  [[candidateOf false "console" (some "shell") [], candidateOf false "shell" none [],
      candidateOf true "app" none ["console", "shell"]],
    [candidateOf true "console" (some "shell") []], [candidateOf true "shell" none []]]

def twoWorkers : List (NewContainer Unit) := [workerOf "app", workerOf "console", workerOf "shell"]

theorem twoNames_expansions : List.Forall₂ Expansion twoWorkers twoNames := by
  have hnode : ∀ name aliasOf, ∃ package, (candidateOf false name aliasOf []).package = some package ∧
      package.node.name = (candidateOf false name aliasOf []).declaration.key := fun name aliasOf => ⟨_, rfl, rfl⟩
  refine .cons ⟨⟨_, rfl, rfl⟩, ?_⟩ (.cons ⟨⟨_, rfl, rfl⟩, ?_⟩ (.cons ⟨⟨_, rfl, rfl⟩, ?_⟩ .nil))
  · intro c hc hroot
    rcases List.mem_cons.mp hc with rfl | hc
    · exact hnode "console" (some "shell")
    · rcases List.mem_cons.mp hc with rfl | hc
      · exact hnode "shell" none
      · rw [List.mem_singleton.mp hc] at hroot
        cases hroot
  · intro c hc hroot
    rw [List.mem_singleton.mp hc] at hroot
    cases hroot
  · intro c hc hroot
    rw [List.mem_singleton.mp hc] at hroot
    cases hroot

theorem twoNames_canonical : Canonical twoNames.flatten := by
  have hall : ∀ c ∈ twoNames.flatten, ∀ p ∈ c.package,
      p.node.canonicalName = if p.node.name = "app" then "app" else "shell" := by
    simp [twoNames, candidateOf, releaseOf, Node.canonicalName]
  intro c hc c' hc' p hp p' hp' _ hname
  rw [hall c hc p hp, hall c' hc' p' hp', hname]

theorem plan_any_order_reversed :
    SameOutcome (planResolved oneVersion twoWorkers twoNames.flatten .empty ∅ none)
        (planResolved oneVersion twoWorkers.reverse twoNames.flatten.reverse .empty ∅ none) ∧
      ∀ plan, planResolved oneVersion twoWorkers twoNames.flatten .empty ∅ none = .ok plan →
        plan.Sound twoWorkers twoNames.flatten .empty ∅ none :=
  plan_any_order oneVersion .empty ∅ none (by decide) twoNames_expansions twoNames_canonical
    (List.reverse_perm _).symm (List.reverse_perm _).symm

/-- `console` and `shell` are one package, and `app` waits for a container of each name. -/
theorem console_and_shell :
    (twoWorkers.map (·.key)).Nodup ∧ List.Forall₂ Expansion twoWorkers twoNames ∧ Canonical twoNames.flatten ∧
      (releaseOf "console" (some "shell")).identity = (releaseOf "shell" none).identity ∧
      ∃ plan, planResolved oneVersion twoWorkers twoNames.flatten .empty ∅ none = .ok plan ∧
        plan.containers = [workerOf "console", workerOf "shell",
          { workerOf "app" with startAfter := ["console", "shell"] }] := by
  refine ⟨by decide, twoNames_expansions, twoNames_canonical, rfl, ?_⟩
  have hplan : (planResolved oneVersion twoWorkers twoNames.flatten .empty ∅ none).map (·.containers) =
      .ok [workerOf "console", workerOf "shell", { workerOf "app" with startAfter := ["console", "shell"] }] := by
    decide +kernel
  cases hrun : planResolved oneVersion twoWorkers twoNames.flatten .empty ∅ none with
  | error e =>
    rw [hrun] at hplan
    cases hplan
  | ok plan =>
    rw [hrun] at hplan
    exact ⟨plan, rfl, Except.ok.inj hplan⟩

end Iii.Compose
