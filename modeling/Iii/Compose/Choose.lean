import Iii.Compose.Plan

/-! The choice of containers does not look at the order of the candidates.

The maps that the planner builds first (who was requested, who runs a package, which nodes
need a container, and which container each name stands for) are determined by what the
candidates are. The nodes of one package are grouped in the order they come, and the choice
looks at the first of them; but it refuses a group whose members differ in release, and
between equal releases the first is as good as any other. -/
namespace Iii.Compose
open Lib

/-! ### Releases -/

theorem Node.sameRelease_iff {a b : Node} : a.sameRelease b = true ↔
    a.version = b.version ∧ a.kind = b.kind ∧ a.artifactDigest = b.artifactDigest ∧
      a.defaultConfig = b.defaultConfig := by
  simp [sameRelease, and_assoc]

theorem Node.sameRelease_congr {a b : Node} (h : a.sameRelease b = true) (c : Node) :
    a.sameRelease c = b.sameRelease c := by
  obtain ⟨hversion, hkind, hdigest, hconfig⟩ := sameRelease_iff.mp h
  simp only [sameRelease, hversion, hkind, hdigest, hconfig]

/-! ### Expansions -/

section Expansions
variable {F : Type}

/-- The candidates of one requested worker: the worker itself, and the nodes that its graph
reaches under the names they have there. -/
structure Expansion (worker : NewContainer F) (candidates : List (Candidate F)) : Prop where
  root : ∃ root, candidates.filter (·.root) = [root] ∧ root.declaration.key = worker.key
  nodes : ∀ candidate ∈ candidates, candidate.root = false →
    ∃ package, candidate.package = some package ∧ package.node.name = candidate.declaration.key

/-- One name in a registry has one canonical name. -/
def Canonical (expanded : List (Candidate F)) : Prop :=
  ∀ c ∈ expanded, ∀ c' ∈ expanded, ∀ p ∈ c.package, ∀ p' ∈ c'.package, p.registry = p'.registry →
    p.node.name = p'.node.name → p.node.canonicalName = p'.node.canonicalName

/-- The candidates of all requested workers, in any order. -/
structure Expanded (asked : List (NewContainer F)) (expanded : List (Candidate F)) : Prop where
  distinct : (asked.map (·.key)).Nodup
  named : ∀ c ∈ expanded, c.root = true → c.declaration.key ∈ asked.map (·.key)
  once : ((expanded.filter (·.root)).map (·.declaration.key)).Nodup
  nodes : ∀ c ∈ expanded, c.root = false →
    ∃ package, c.package = some package ∧ package.node.name = c.declaration.key
  canonical : Canonical expanded

theorem expanded_flatten {asked : List (NewContainer F)} {expansions : List (List (Candidate F))}
    (hasked : (asked.map (·.key)).Nodup) (hexpansions : List.Forall₂ Expansion asked expansions)
    (hcanonical : Canonical expansions.flatten) : Expanded asked expansions.flatten := by
  have hroots : (expansions.flatten.filter (·.root)).map (·.declaration.key) = asked.map (·.key) := by
    clear hasked hcanonical
    induction hexpansions with
    | nil => rfl
    | cons h _ ih =>
      obtain ⟨root, hroot, hkey⟩ := h.root
      rw [List.flatten_cons, List.filter_append, hroot, List.map_append, ih, List.map_cons, hkey]
      rfl
  refine ⟨hasked, ?_, hroots ▸ hasked, ?_, hcanonical⟩
  · intro c hc hroot
    rw [← hroots]
    exact List.mem_map_of_mem (List.mem_filter.mpr ⟨hc, hroot⟩)
  · intro c hc
    obtain ⟨candidates, hcandidates, hmem⟩ := List.mem_flatten.mp hc
    obtain ⟨worker, -, hworker⟩ := exists_of_forall₂ hexpansions candidates hcandidates
    exact hworker.nodes c hmem

variable {asked asked' : List (NewContainer F)} {expanded expanded' : List (Candidate F)}

theorem Expanded.perm (h : Expanded asked expanded) (hasked : asked.Perm asked') (hexpanded : expanded.Perm expanded') :
    Expanded asked' expanded' where
  distinct := (hasked.map _).nodup_iff.mp h.distinct
  named c hc hroot := (hasked.map _).mem_iff.mp (h.named c (hexpanded.mem_iff.mpr hc) hroot)
  once := ((hexpanded.filter _).map _).nodup_iff.mp h.once
  nodes c hc := h.nodes c (hexpanded.mem_iff.mpr hc)
  canonical c hc c' hc' := h.canonical c (hexpanded.mem_iff.mpr hc) c' (hexpanded.mem_iff.mpr hc')

end Expansions

/-! ### The requested workers -/

section Requested
variable {F : Type} {asked asked' : List (NewContainer F)}

theorem functional_requested (h : (asked.map (·.key)).Nodup) :
    SortedMap.Functional (asked.map fun worker => (worker.key, worker)) := by
  apply SortedMap.functional_of_distinct
  rw [Assoc.Distinct, List.map_map]
  exact h

theorem requestedBy_perm (h : (asked.map (·.key)).Nodup) (hperm : asked.Perm asked') :
    requestedBy asked = requestedBy asked' :=
  SortedMap.ofList_congr (functional_requested h) fun _ => (hperm.map _).mem_iff

theorem requestedBy_eq_some (h : (asked.map (·.key)).Nodup) {key : String} {worker : NewContainer F} :
    (requestedBy asked).get? key = some worker ↔ worker ∈ asked ∧ worker.key = key := by
  rw [requestedBy, SortedMap.get?_ofList_iff (functional_requested h), List.mem_map]
  constructor
  · intro ⟨w, hw, heq⟩
    cases heq
    exact ⟨hw, rfl⟩
  · intro ⟨hw, hkey⟩
    exact ⟨worker, hw, by rw [hkey]⟩

theorem requestedBy_isSome (h : (asked.map (·.key)).Nodup) {key : String} :
    ((requestedBy asked).get? key).isSome ↔ key ∈ asked.map (·.key) := by
  rw [Option.isSome_iff_exists, List.mem_map]
  exact exists_congr fun worker => requestedBy_eq_some h

end Requested

/-! ### The containers that run a package -/

section Owners

theorem Owners.add_comm (owners : Owners) {a b : String × Package} (h : a.1 ≠ b.1) :
    (owners.add a).add b = (owners.add b).add a := by
  unfold add
  by_cases hid : a.2.identity = b.2.identity
  · rw [SortedMap.get?_insert, SortedMap.get?_insert, ← hid, if_pos rfl, if_pos rfl, Option.getD_some,
      Option.getD_some, SortedMap.insert_insert, SortedMap.insert_insert, SortedMap.insert_comm h]
  · rw [SortedMap.get?_insert, SortedMap.get?_insert, if_neg hid, if_neg (Ne.symm hid), SortedMap.insert_comm hid]

variable {F : Type} {asked : List (NewContainer F)} {expanded expanded' : List (Candidate F)}

theorem mem_rootPackages {key : String} {package : Package} :
    (key, package) ∈ rootPackages expanded ↔
      ∃ c ∈ expanded, c.root = true ∧ c.package = some package ∧ c.declaration.key = key := by
  rw [rootPackages, List.mem_filterMap]
  refine exists_congr fun c => and_congr_right fun _ => ?_
  cases c.root <;> cases c.package <;> simp [and_comm]

theorem mem_nodePackages {key : String} {package : Package} :
    (key, package) ∈ nodePackages expanded ↔
      ∃ c ∈ expanded, c.root = false ∧ c.package = some package ∧ c.declaration.key = key := by
  rw [nodePackages, List.mem_filterMap]
  refine exists_congr fun c => and_congr_right fun _ => ?_
  cases c.root <;> cases c.package <;> simp [and_comm]

theorem rootPackages_distinct (h : Expanded asked expanded) : Assoc.Distinct (rootPackages expanded) := by
  have hsub : ((rootPackages expanded).map (·.1)).Sublist ((expanded.filter (·.root)).map (·.declaration.key)) := by
    clear h
    induction expanded with
    | nil => exact .slnil
    | cons c rest ih =>
      unfold rootPackages at ih ⊢
      rw [List.filterMap_cons, List.filter_cons]
      cases hroot : c.root with
      | false => exact ih
      | true =>
        cases c.package with
        | none => exact ih.cons _
        | some package => exact ih.cons_cons _
  exact h.once.sublist hsub

theorem ownersOf_perm (h : Expanded asked expanded) (hperm : expanded.Perm expanded')
    (existing : SortedMap String Package) :
    ownersOf existing (rootPackages expanded) = ownersOf existing (rootPackages expanded') := by
  refine (hperm.filterMap _).foldl_eq' ?_ _
  intro a ha b hb owners
  by_cases hkey : a.1 = b.1
  · have hdistinct := rootPackages_distinct h
    have heq : some a.2 = some b.2 := (Assoc.get?_of_mem hdistinct ha).symm.trans (hkey ▸ Assoc.get?_of_mem hdistinct hb)
    rw [show a = b from Prod.ext hkey (Option.some.inj heq)]
  · exact owners.add_comm hkey

theorem roots_perm (h : Expanded asked expanded) (hperm : expanded.Perm expanded') :
    SortedMap.ofList (rootPackages expanded) = .ofList (rootPackages expanded') :=
  SortedMap.ofList_congr (SortedMap.functional_of_distinct (rootPackages_distinct h))
    fun _ => (hperm.filterMap _).mem_iff

end Owners

/-! ### The groups -/

section Groups
variable {F : Type} {requested : SortedMap String (NewContainer F)} {roots : SortedMap String Package}

/-- The nodes of a package, none when there is no group. -/
def members (group : Option Group) : List Package :=
  match group with
  | none => []
  | some group => group.packages

theorem members_push (group : Option Group) (package : Package) :
    (Group.push group package).packages = members group ++ [package] := by
  cases group <;> rfl

theorem members_eq_nil {group : Option Group} : members group = [] ↔ group = none := by
  cases group with
  | none => exact ⟨fun _ => rfl, fun _ => rfl⟩
  | some group => exact ⟨(fun h => nomatch h), (fun h => nomatch h)⟩

/-- What one node does to the groups. -/
def addNode (requested : SortedMap String (NewContainer F)) (roots : SortedMap String Package)
    (automatic : SortedMap Identity Group) (e : String × Package) : Except ComposeError (SortedMap Identity Group) :=
  if (requested.get? e.1).isNone then
    .ok (automatic.insert e.2.identity (.push (automatic.get? e.2.identity) e.2))
  else (checkCopy roots e.1 e.2).map fun _ => automatic

/-- A node of the name of a requested worker agrees with it. -/
def Agrees (requested : SortedMap String (NewContainer F)) (roots : SortedMap String Package) (e : String × Package) : Prop :=
  (requested.get? e.1).isSome → checkCopy roots e.1 e.2 = .ok ()

theorem addNode_spec {automatic next : SortedMap Identity Group} {e : String × Package}
    (h : addNode requested roots automatic e = .ok next) :
    Agrees requested roots e ∧ ∀ identity p, p ∈ members (next.get? identity) ↔
      p ∈ members (automatic.get? identity) ∨ e.2 = p ∧ p.identity = identity ∧ requested.get? e.1 = none := by
  unfold addNode at h
  cases hget : requested.get? e.1 with
  | none =>
    rw [hget, Option.isNone_none, if_pos rfl] at h
    cases h
    refine ⟨fun hsome => ?_, ?_⟩
    · rw [hget] at hsome
      cases hsome
    · intro identity p
      rw [SortedMap.get?_insert]
      by_cases hid : e.2.identity = identity
      · rw [if_pos hid, members, members_push, List.mem_append, List.mem_singleton, hid, eq_comm (a := p)]
        refine or_congr_right ⟨fun hp => ⟨hp, ?_, rfl⟩, fun hp => hp.1⟩
        rw [← hp]
        exact hid
      · rw [if_neg hid]
        refine ⟨.inl, fun hp => hp.resolve_right ?_⟩
        rintro ⟨rfl, hp, -⟩
        exact hid hp
  | some worker =>
    rw [hget, Option.isNone_some, if_neg Bool.false_ne_true] at h
    cases hcheck : checkCopy roots e.1 e.2 with
    | error err =>
      rw [hcheck] at h
      cases h
    | ok =>
      rw [hcheck] at h
      cases h
      exact ⟨fun _ => hcheck, fun identity p => ⟨.inl, fun hp => hp.resolve_right fun hp => nomatch hp.2.2⟩⟩

theorem exists_addNode (automatic : SortedMap Identity Group) {e : String × Package} (h : Agrees requested roots e) :
    ∃ next, addNode requested roots automatic e = .ok next := by
  unfold addNode
  cases hget : requested.get? e.1 with
  | none => exact ⟨_, rfl⟩
  | some worker =>
    rw [h (by rw [hget]; rfl)]
    exact ⟨_, rfl⟩

/-- What the groups are made of, when the loop passes. -/
structure Grouped (requested : SortedMap String (NewContainer F)) (roots : SortedMap String Package)
    (nodes : List (String × Package)) (automatic : SortedMap Identity Group) : Prop where
  agree : ∀ e ∈ nodes, Agrees requested roots e
  members : ∀ identity p, p ∈ members (automatic.get? identity) ↔
    p.identity = identity ∧ ∃ e ∈ nodes, e.2 = p ∧ requested.get? e.1 = none

theorem automaticOf_spec {nodes : List (String × Package)} {automatic : SortedMap Identity Group}
    (h : automaticOf requested roots nodes = .ok automatic) : Grouped requested roots nodes automatic := by
  have hrun : ∀ (nodes : List (String × Package)) (start : SortedMap Identity Group),
      nodes.foldlM (addNode requested roots) start = .ok automatic →
      (∀ e ∈ nodes, Agrees requested roots e) ∧ ∀ identity p, p ∈ members (automatic.get? identity) ↔
        p ∈ members (start.get? identity) ∨ p.identity = identity ∧ ∃ e ∈ nodes, e.2 = p ∧ requested.get? e.1 = none := by
    intro nodes
    induction nodes with
    | nil =>
      intro start h
      cases h
      exact ⟨(fun _ h => nomatch h), fun _ _ => ⟨.inl, fun h => h.resolve_right fun ⟨_, _, h, _⟩ => nomatch h⟩⟩
    | cons e rest ih =>
      intro start h
      obtain ⟨next, hstep, hrest⟩ := bind_eq_ok.mp h
      obtain ⟨hagree, hmem⟩ := addNode_spec hstep
      obtain ⟨hagrees, hmems⟩ := ih next hrest
      refine ⟨List.forall_mem_cons.mpr ⟨hagree, hagrees⟩, fun identity p => ?_⟩
      rw [hmems, hmem, List.exists_mem_cons_iff, or_assoc]
      refine or_congr_right ⟨fun h => ?_, fun ⟨hid, h⟩ => ?_⟩
      · rcases h with ⟨heq, hid, hget⟩ | ⟨hid, h⟩
        · exact ⟨hid, .inl ⟨heq, hget⟩⟩
        · exact ⟨hid, .inr h⟩
      · rcases h with ⟨heq, hget⟩ | h
        · exact .inl ⟨heq, hid, hget⟩
        · exact .inr ⟨hid, h⟩
  obtain ⟨hagree, hmem⟩ := hrun nodes .empty h
  exact ⟨hagree, fun identity p => (hmem identity p).trans ⟨fun h => h.resolve_left (fun h => nomatch h), .inr⟩⟩

theorem exists_automaticOf {nodes : List (String × Package)} (h : ∀ e ∈ nodes, Agrees requested roots e) :
    ∃ automatic, automaticOf requested roots nodes = .ok automatic := by
  have hrun : ∀ start, ∃ automatic, nodes.foldlM (addNode requested roots) start = .ok automatic := by
    induction nodes with
    | nil => exact fun start => ⟨start, rfl⟩
    | cons e rest ih =>
      intro start
      rw [List.forall_mem_cons] at h
      obtain ⟨next, hnext⟩ := exists_addNode start h.1
      obtain ⟨automatic, hrest⟩ := ih h.2 next
      exact ⟨automatic, bind_eq_ok.mpr ⟨next, hnext, hrest⟩⟩
  exact hrun .empty

end Groups

/-! ### The choice for a group -/

section Select
variable {F : Type} {scope : Scope F}

variable {identity : Identity}

theorem compatible_congr {release release' : Node} (h : release.sameRelease release' = true) :
    scope.compatible identity release = scope.compatible identity release' := by
  unfold Scope.compatible
  simp only [Node.sameRelease_congr h]

/-- A chosen group has one release; without aliases its members have the name of the package. -/
theorem canonicalName_of_not_aliasesUsed {group : Group} (h : scope.aliasesUsed identity group = false)
    {p : Package} (hp : p ∈ group.packages) (hid : p.identity = identity) :
    p.node.name = (ofLex identity).2 := by
  have hnone : p.node.aliasOf = none := by
    have hany := (Bool.or_eq_false_iff.mp h).1
    have := List.any_eq_false.mp hany p hp
    simpa using this
  rw [← hid]
  show p.node.name = p.node.canonicalName
  rw [Node.canonicalName, hnone, Option.getD_none]

/-- What the chosen container is: an ordinary declared dependency, the only container at the
needed release, or a new one under the canonical name. -/
def Chosen (scope : Scope F) (identity : Identity) (group : Group) (key : String) : Prop :=
  if scope.aliasesUsed identity group = false ∧
      (scope.existing.get? group.first.node.name).map (·.identity) = some identity then
    key = group.first.node.name
  else
    scope.compatible identity group.first.node = [key] ∨
      scope.compatible identity group.first.node = [] ∧ (scope.choices identity).entries = [] ∧
        (ofLex identity).2 ∉ scope.existingKeys ∧ scope.requested.get? (ofLex identity).2 = none ∧
          key = (ofLex identity).2

theorem select_eq_ok {group : Group} {key : String} :
    scope.select identity group = .ok key ↔
      (∀ p ∈ group.packages, group.first.node.sameRelease p.node = true) ∧ Chosen scope identity group key := by
  unfold Scope.select Chosen
  dsimp only
  by_cases hreleases : ∀ p ∈ group.packages, group.first.node.sameRelease p.node = true
  · have hany : ¬ (group.packages.any fun p => !group.first.node.sameRelease p.node) = true := by
      simpa using hreleases
    rw [if_neg hany, and_iff_right hreleases]
    split
    · exact ⟨fun h => (Except.ok.inj h).symm, fun h => by rw [h]⟩
    · split
      · rename_i only heq
        rw [heq]
        simp
      · rename_i heq
        rw [heq]
        split
        · rename_i hne
          simp [hne]
        · rename_i hempty
          rw [ne_eq, not_not] at hempty
          split
          · rename_i htaken
            simp only [reduceCtorEq, false_iff]
            rintro (h | ⟨-, -, hkeys, hget, -⟩)
            · cases h
            · rcases htaken with htaken | htaken
              · exact hkeys htaken
              · rw [hget] at htaken
                cases htaken
          · rename_i hfree
            rw [not_or, Option.not_isSome_iff_eq_none] at hfree
            simp only [hempty, hfree.1, hfree.2, Except.ok.injEq, reduceCtorEq, false_or, true_and, not_false_eq_true]
            exact eq_comm
      · rename_i keys hone hnil
        refine ⟨(fun h => nomatch h), fun h => ?_⟩
        rcases h with h | h
        · exact absurd h (hone key)
        · exact absurd h.1 hnil
  · have hany : (group.packages.any fun p => !group.first.node.sameRelease p.node) = true := by
      simpa using hreleases
    rw [if_pos hany]
    exact ⟨(fun h => nomatch h), fun h => absurd h.1 hreleases⟩

theorem select_congr {group group' : Group} {key : String}
    (hsame : ∀ p, p ∈ group.packages ↔ p ∈ group'.packages) (hid : ∀ p ∈ group.packages, p.identity = identity)
    (h : scope.select identity group = .ok key) : scope.select identity group' = .ok key := by
  rw [select_eq_ok] at h
  obtain ⟨hreleases, hchosen⟩ := h
  have hfirst : group'.first ∈ group.packages := (hsame _).mpr List.mem_cons_self
  have hrelease := hreleases _ hfirst
  have haliases : scope.aliasesUsed identity group' = scope.aliasesUsed identity group := by
    unfold Scope.aliasesUsed
    congr 1
    rw [Bool.eq_iff_iff, List.any_eq_true, List.any_eq_true]
    exact exists_congr fun p => and_congr_left fun _ => (hsame p).symm
  rw [select_eq_ok]
  refine ⟨fun p hp => ?_, ?_⟩
  · rw [← Node.sameRelease_congr hrelease]
    exact hreleases p ((hsame p).mpr hp)
  · unfold Chosen at hchosen ⊢
    rw [haliases, ← compatible_congr hrelease]
    by_cases haliased : scope.aliasesUsed identity group = false
    · have hname := canonicalName_of_not_aliasesUsed haliased List.mem_cons_self (hid _ List.mem_cons_self)
      have hname' := canonicalName_of_not_aliasesUsed haliased hfirst (hid _ hfirst)
      rw [hname'.trans hname.symm]
      exact hchosen
    · rw [if_neg (fun h => haliased h.1)] at hchosen ⊢
      exact hchosen

end Select

/-! ### All choices -/

section Choices
variable {F : Type} {asked asked' : List (NewContainer F)} {expanded expanded' : List (Candidate F)}
variable {existing : SortedMap String Package} {existingKeys : Finset String} {update : Option UpdateScope}

theorem scopeOf_perm (h : Expanded asked expanded) (hasked : asked.Perm asked') (hexpanded : expanded.Perm expanded') :
    scopeOf asked expanded existing existingKeys update = scopeOf asked' expanded' existing existingKeys update := by
  rw [scopeOf, requestedBy_perm h.distinct hasked, ownersOf_perm h hexpanded]
  rfl

variable {scope : Scope F} {selected : SortedMap Identity String}

theorem choose_perm (h : Expanded asked expanded) (hperm : expanded.Perm expanded')
    (hchoose : scope.choose expanded = .ok selected) : scope.choose expanded' = .ok selected := by
  obtain ⟨automatic, hautomatic, hselected⟩ := bind_eq_ok.mp hchoose
  have hgrouped := automaticOf_spec hautomatic
  have hnodes : ∀ e, e ∈ nodePackages expanded ↔ e ∈ nodePackages expanded' := fun e => (hperm.filterMap _).mem_iff
  obtain ⟨automatic', hautomatic'⟩ : ∃ automatic', automaticOf scope.requested (.ofList (rootPackages expanded'))
      (nodePackages expanded') = .ok automatic' := by
    apply exists_automaticOf
    rw [← roots_perm h hperm]
    exact fun e he => hgrouped.agree e ((hnodes e).mpr he)
  have hgrouped' := automaticOf_spec hautomatic'
  have hmembers : ∀ identity p, p ∈ members (automatic.get? identity) ↔ p ∈ members (automatic'.get? identity) := by
    intro identity p
    rw [hgrouped.members, hgrouped'.members]
    simp only [hnodes]
  have hidentity : ∀ identity, ∀ p ∈ members (automatic.get? identity), p.identity = identity := fun identity p hp =>
    ((hgrouped.members identity p).mp hp).1
  have hnone : ∀ identity, automatic.get? identity = none ↔ automatic'.get? identity = none := by
    intro identity
    rw [← members_eq_nil, ← members_eq_nil, List.eq_nil_iff_forall_not_mem, List.eq_nil_iff_forall_not_mem]
    simp only [hmembers]
  have hsame : ∀ identity group, automatic'.get? identity = some group → ∃ key,
      scope.select identity group = .ok key ∧ selected.get? identity = some key := by
    intro identity group hgroup
    rcases SortedMap.traverse_eq_ok hselected identity with ⟨hget, -⟩ | ⟨group', key, hget, hselect, hkey⟩
    · rw [(hnone identity).mp hget] at hgroup
      cases hgroup
    · have hmem := hmembers identity
      have hid := hidentity identity
      rw [hget] at hmem hid
      rw [hgroup] at hmem
      exact ⟨key, select_congr hmem hid hselect, hkey⟩
  obtain ⟨selected', hselected'⟩ : ∃ selected', automatic'.traverse scope.select = .ok selected' :=
    SortedMap.exists_traverse fun identity group hgroup => (hsame identity group hgroup).imp fun _ h => h.1
  have heq : selected' = selected := by
    apply SortedMap.ext
    intro identity
    rcases SortedMap.traverse_eq_ok hselected' identity with ⟨hget, hget'⟩ | ⟨group, key, hget, hselect, hkey⟩
    · rcases SortedMap.traverse_eq_ok hselected identity with ⟨-, hkey⟩ | ⟨group, key, hgroup, -, -⟩
      · rw [hget', hkey]
      · rw [(hnone identity).mpr hget] at hgroup
        cases hgroup
    · obtain ⟨key', hselect', hkey'⟩ := hsame identity group hget
      rw [hkey, hkey', Except.ok.inj (hselect.symm.trans hselect')]
  rw [← heq]
  exact bind_eq_ok.mpr ⟨automatic', hautomatic', hselected'⟩

/-- Every node that no request names has a container, chosen for all nodes of its package. -/
theorem choose_spec (hchoose : scope.choose expanded = .ok selected) {c : Candidate F} {p : Package}
    (hc : c ∈ expanded) (hroot : c.root = false) (hp : c.package = some p)
    (hfree : scope.requested.get? c.declaration.key = none) :
    ∃ group key, p ∈ group.packages ∧ (∀ q ∈ group.packages, q.identity = p.identity) ∧
      Chosen scope p.identity group key ∧ selected.get? p.identity = some key := by
  obtain ⟨automatic, hautomatic, hselected⟩ := bind_eq_ok.mp hchoose
  have hgrouped := automaticOf_spec hautomatic
  have hmem : p ∈ members (automatic.get? p.identity) := (hgrouped.members _ _).mpr
    ⟨rfl, (c.declaration.key, p), mem_nodePackages.mpr ⟨c, hc, hroot, hp, rfl⟩, rfl, hfree⟩
  rcases SortedMap.traverse_eq_ok hselected p.identity with ⟨hget, -⟩ | ⟨group, key, hget, hselect, hkey⟩
  · rw [hget] at hmem
    cases hmem
  · have hid := fun q hq => ((hgrouped.members p.identity q).mp hq).1
    rw [hget] at hmem hid
    exact ⟨group, key, hmem, hid, (Iff.mp select_eq_ok hselect).2, hkey⟩

/-! ### What a name stands for -/

/-- The entries that the names are looked up in. -/
def targetEntries (scope : Scope F) (selected : SortedMap Identity String) (expanded : List (Candidate F)) :
    List (Identity × String) :=
  expanded.filterMap fun candidate => candidate.package.map fun package =>
    (toLex (package.registry, candidate.declaration.key),
      scope.targetKey selected candidate.declaration.key package)

theorem mem_targetEntries {identity : Identity} {key : String} :
    (identity, key) ∈ targetEntries scope selected expanded ↔ ∃ c ∈ expanded, ∃ p, c.package = some p ∧
      toLex (p.registry, c.declaration.key) = identity ∧ scope.targetKey selected c.declaration.key p = key := by
  rw [targetEntries, List.mem_filterMap]
  refine exists_congr fun c => and_congr_right fun _ => ?_
  rw [Option.map_eq_some_iff]
  exact exists_congr fun p => and_congr_right fun _ => Prod.ext_iff

variable (h : Expanded asked expanded) (hscope : scope.requested = requestedBy asked)
include h hscope

/-- A name that no request has is the name of a node. -/
theorem Expanded.node_of_free {c : Candidate F} {p : Package} (hc : c ∈ expanded) (hp : c.package = some p)
    (hfree : scope.requested.get? c.declaration.key = none) : c.root = false ∧ p.node.name = c.declaration.key := by
  have hroot : c.root = false := by
    cases hroot : c.root with
    | false => rfl
    | true =>
      have hsome := (requestedBy_isSome h.distinct).mpr (h.named c hc hroot)
      rw [← hscope, hfree] at hsome
      cases hsome
  obtain ⟨package, hpackage, hname⟩ := h.nodes c hc hroot
  cases hp.symm.trans hpackage
  exact ⟨hroot, hname⟩

theorem functional_targetEntries (selected : SortedMap Identity String) :
    SortedMap.Functional (targetEntries scope selected expanded) := by
  intro identity v v' hv hv'
  rw [mem_targetEntries] at hv hv'
  obtain ⟨c, hc, p, hp, hid, rfl⟩ := hv
  obtain ⟨c', hc', p', hp', hid', rfl⟩ := hv'
  obtain ⟨hregistry, hkey⟩ := Prod.ext_iff.mp (toLex.injective (hid.trans hid'.symm))
  replace hregistry : p.registry = p'.registry := hregistry
  replace hkey : c.declaration.key = c'.declaration.key := hkey
  unfold Scope.targetKey
  rw [← hkey]
  split
  · rfl
  · rename_i hfree
    rw [Option.not_isSome_iff_eq_none] at hfree
    have hname := (h.node_of_free hscope hc hp hfree).2
    have hname' := (h.node_of_free hscope hc' hp' (hkey ▸ hfree)).2
    have hcanonical := h.canonical c hc c' hc' p hp p' hp' hregistry (hname.trans (hkey.trans hname'.symm))
    have hidentity : p.identity = p'.identity := by
      unfold Package.identity
      rw [hregistry, hcanonical]
    rw [hidentity]

theorem targetsOf_perm (hperm : expanded.Perm expanded') :
    scope.targetsOf selected expanded = scope.targetsOf selected expanded' :=
  SortedMap.ofList_congr (functional_targetEntries h hscope selected) fun _ => (hperm.filterMap _).mem_iff

theorem target_of_mem {c : Candidate F} {p : Package} (hc : c ∈ expanded) (hp : c.package = some p) :
    target (scope.targetsOf selected expanded) p.registry c.declaration.key =
      scope.targetKey selected c.declaration.key p := by
  have hget := (SortedMap.get?_ofList_iff (functional_targetEntries h hscope selected)).mpr
    (mem_targetEntries.mpr ⟨c, hc, p, hp, rfl, rfl⟩)
  rw [target, Scope.targetsOf]
  exact congrArg (fun key => Option.getD key c.declaration.key) hget

/-- A name that no candidate has stands for itself. -/
theorem target_of_absent {registry name : String}
    (habsent : ∀ c ∈ expanded, ∀ p ∈ c.package, p.registry = registry → c.declaration.key ≠ name) :
    target (scope.targetsOf selected expanded) registry name = name := by
  have hget : (scope.targetsOf selected expanded).get? (toLex (registry, name)) = none := by
    rw [Option.eq_none_iff_forall_ne_some]
    intro key hkey
    rw [Scope.targetsOf, ← targetEntries, SortedMap.get?_ofList_iff (functional_targetEntries h hscope selected),
      mem_targetEntries] at hkey
    obtain ⟨c, hc, p, hp, hid, -⟩ := hkey
    obtain ⟨hregistry, hname⟩ := Prod.ext_iff.mp (toLex.injective hid)
    exact habsent c hc p hp hregistry hname
  rw [target, hget, Option.getD_none]

end Choices

end Iii.Compose
