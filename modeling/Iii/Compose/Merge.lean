import Iii.Compose.Choose

/-! The loop over the candidates does not look at their order either.

What a candidate contributes does not depend on what came before it: an alias, and either
edges for a requested container, or nothing, or a declaration. The loop passes exactly when
no two contributions disagree about the source, the fields or the version of a container, and
then a container has the source and the fields of any of its declarations, and the edges of
all contributions to it, sorted and without repetition. -/
namespace Iii.Compose
open Lib

section Merge
variable {F : Type}

/-! ### What a candidate contributes -/

inductive Part (F : Type) where
  | copy (key : String) (edges : List String)
  | reused
  | declared (container : NewContainer F) (lock : Option String)

structure Share (F : Type) where
  aliases : List Alias
  part : Part F

variable (scope : Scope F) (semver : Semver) (targets : SortedMap Identity String)

/-- The request of a candidate that is a requested worker. -/
def Scope.explicit (c : Candidate F) : Option (NewContainer F) :=
  if c.root then scope.requested.get? c.declaration.key else none

def Scope.partOf (c : Candidate F) (package : Package) : Except ComposeError (Part F) := do
  let key := target targets package.registry c.declaration.key
  if c.root = false ∧ (scope.requested.get? key).isSome then
    let edges ← retarget c.declaration.startAfter package.registry targets key c.declaration.key
    return .copy key edges
  else
    match ← scope.sourceOf semver (scope.explicit c) key package c.declaration.source with
    | none => return .reused
    | some (source, lock) => do
      let edges ← retarget c.declaration.startAfter package.registry targets key c.declaration.key
      return .declared
        (explicitly (scope.explicit c) { c.declaration with key := key, source := source, startAfter := edges }) lock

def Scope.shareOf (c : Candidate F) : Except ComposeError (Share F) :=
  match c.package with
  | none => .ok ⟨[], .declared (explicitly (scope.explicit c) c.declaration) none⟩
  | some package =>
    (scope.partOf semver targets c package).map fun part =>
      ⟨(aliasOf package (target targets package.registry c.declaration.key)).toList, part⟩

def Building.takePart [DecidableEq F] (b : Building F) (part : Part F) : Except ComposeError (Building F) :=
  match part with
  | .copy key edges => .ok (b.copy key edges)
  | .reused => .ok b
  | .declared container lock => do
    let b ← b.lockVersion container.key lock
    b.declare container

def Building.take [DecidableEq F] (b : Building F) (share : Share F) : Except ComposeError (Building F) :=
  { b with aliases := b.aliases ++ share.aliases }.takePart share.part

theorem explicitly_key (explicit : Option (NewContainer F)) (w : NewContainer F) : (explicitly explicit w).key = w.key := by
  cases explicit <;> rfl

variable {b : Building F}

/-- Placing a candidate is taking what it contributes. -/
theorem place_eq_ok [DecidableEq F] {b' : Building F} {c : Candidate F} :
    scope.place semver targets b c = .ok b' ↔
      ∃ share, scope.shareOf semver targets c = .ok share ∧ b.take share = .ok b' := by
  unfold Scope.place Scope.shareOf Building.take
  cases c.package with
  | none =>
    have hnothing : { b with aliases := b.aliases ++ [] } = b := by rw [List.append_nil]
    constructor
    · intro h
      refine ⟨_, rfl, ?_⟩
      rw [hnothing]
      exact h
    · intro ⟨share, hshare, h⟩
      cases hshare
      rw [hnothing] at h
      exact h
  | some package =>
    dsimp only
    unfold Scope.partOf
    generalize hkey : target targets package.registry c.declaration.key = key
    have hexplicit : (if c.root = true then scope.requested.get? c.declaration.key else none) = scope.explicit c := rfl
    rw [hexplicit]
    by_cases hcopy : c.root = false ∧ (scope.requested.get? key).isSome = true
    · dsimp only
      rw [if_pos hcopy, if_pos hcopy]
      cases retarget c.declaration.startAfter package.registry targets key c.declaration.key with
      | error e => exact ⟨(fun h => nomatch h), fun ⟨_, h, _⟩ => nomatch h⟩
      | ok edges =>
        constructor
        · intro h
          exact ⟨_, rfl, h⟩
        · intro ⟨share, hshare, h⟩
          cases hshare
          exact h
    · dsimp only
      rw [if_neg hcopy, if_neg hcopy]
      cases scope.sourceOf semver (scope.explicit c) key package c.declaration.source with
      | error e => exact ⟨(fun h => nomatch h), fun ⟨_, h, _⟩ => nomatch h⟩
      | ok found =>
        cases found with
        | none =>
          constructor
          · intro h
            exact ⟨_, rfl, h⟩
          · intro ⟨share, hshare, h⟩
            cases hshare
            exact h
        | some found =>
          obtain ⟨source, lock⟩ := found
          constructor
          · intro h
            obtain ⟨_, hfound, h⟩ := bind_eq_ok.mp h
            cases hfound
            obtain ⟨locked, hlock, h⟩ := bind_eq_ok.mp h
            obtain ⟨edges, hedges, h⟩ := bind_eq_ok.mp h
            refine ⟨⟨(aliasOf package key).toList, .declared (explicitly (scope.explicit c)
              { c.declaration with key := key, source := source, startAfter := edges }) lock⟩, ?_, ?_⟩
            · show Except.map _ (retarget c.declaration.startAfter _ _ _ _ >>= _) = _
              rw [hedges]
              rfl
            · refine bind_eq_ok.mpr ⟨locked, ?_, h⟩
              rw [explicitly_key]
              exact hlock
          · intro ⟨share, hshare, h⟩
            replace hshare : Except.map _ (retarget c.declaration.startAfter _ _ _ _ >>= _) = _ := hshare
            cases hedges : retarget c.declaration.startAfter package.registry targets key c.declaration.key with
            | error e =>
              rw [hedges] at hshare
              cases hshare
            | ok edges =>
              rw [hedges] at hshare
              cases hshare
              obtain ⟨locked, hlock, h⟩ := bind_eq_ok.mp h
              rw [explicitly_key] at hlock
              refine bind_eq_ok.mpr ⟨some (source, lock), rfl, ?_⟩
              exact bind_eq_ok.mpr ⟨locked, hlock, bind_eq_ok.mpr ⟨edges, rfl, h⟩⟩

/-! ### What the contributions to a container are -/

/-- The edges that a part adds to a container. -/
def Part.edges (part : Part F) (key : String) : List String :=
  match part with
  | .copy key' edges => if key' = key then edges else []
  | .reused => []
  | .declared w _ => if w.key = key then w.startAfter else []

def Part.declares (part : Part F) (key : String) : Option (NewContainer F) :=
  match part with
  | .copy _ _ => none
  | .reused => none
  | .declared w _ => if w.key = key then some w else none

def Part.locks (part : Part F) (key : String) : Option String :=
  match part with
  | .copy _ _ => none
  | .reused => none
  | .declared w lock => if w.key = key then lock else none

/-- Two parts agree about every container. -/
structure Part.Fits (p q : Part F) : Prop where
  source : ∀ key, ∀ w ∈ p.declares key, ∀ w' ∈ q.declares key, w.source = w'.source ∧ w.fields = w'.fields
  version : ∀ key, ∀ v ∈ p.locks key, ∀ v' ∈ q.locks key, v = v'

theorem Part.Fits.symm {p q : Part F} (h : p.Fits q) : q.Fits p where
  source key w hw w' hw' := (h.source key w' hw' w hw).imp Eq.symm Eq.symm
  version key v hv v' hv' := (h.version key v' hv' v hv).symm

theorem Part.fits_self (p : Part F) : p.Fits p where
  source key w hw w' hw' := by
    cases Option.mem_unique hw hw'
    exact ⟨rfl, rfl⟩
  version key v hv v' hv' := Option.mem_unique hv hv'

def Consistent (shares : List (Share F)) : Prop := ∀ s ∈ shares, ∀ s' ∈ shares, s.part.Fits s'.part

variable {shares : List (Share F)}

theorem consistent_snoc {share : Share F} :
    Consistent (shares ++ [share]) ↔ Consistent shares ∧ ∀ s ∈ shares, s.part.Fits share.part := by
  simp only [Consistent, List.forall_mem_append, List.forall_mem_singleton]
  constructor
  · intro ⟨hshares, hshare⟩
    exact ⟨fun s hs s' hs' => (hshares s hs).1 s' hs', fun s hs => (hshares s hs).2⟩
  · intro ⟨hshares, hshare⟩
    exact ⟨fun s hs => ⟨hshares s hs, hshare s hs⟩, fun s hs => (hshare s hs).symm, share.part.fits_self⟩

/-- The edges of a container, in the order they come. -/
def edgesTo (shares : List (Share F)) (key : String) : List String := shares.flatMap (·.part.edges key)

def firstDeclared (shares : List (Share F)) (key : String) : Option (NewContainer F) :=
  shares.findSome? (·.part.declares key)

def firstLocked (shares : List (Share F)) (key : String) : Option String := shares.findSome? (·.part.locks key)

theorem Part.declares_key {part : Part F} {key : String} {w : NewContainer F} (h : w ∈ part.declares key) :
    w.key = key ∧ ∃ lock, part = .declared w lock := by
  cases part with
  | copy _ _ => cases h
  | reused => cases h
  | declared w' lock =>
    rw [Part.declares] at h
    split at h
    · rename_i hkey
      cases h
      exact ⟨hkey, lock, rfl⟩
    · cases h

/-- What the loop has built out of the contributions so far. -/
structure Built (shares : List (Share F)) (b : Building F) : Prop where
  containers : ∀ key, b.containers.get? key =
    (firstDeclared shares key).map fun w => { w with startAfter := sortDedup (edgesTo shares key) }
  copied : ∀ key, firstDeclared shares key = none → (b.copiedEdges.get? key).getD [] = edgesTo shares key
  taken : ∀ key, (firstDeclared shares key).isSome → b.copiedEdges.get? key = none
  distinct : b.order.Nodup
  order : ∀ key, key ∈ b.order ↔ (firstDeclared shares key).isSome
  aliases : b.aliases = shares.flatMap (·.aliases)
  versions : ∀ key, b.selectedVersions.get? key = firstLocked shares key

theorem built_start : Built ([] : List (Share F)) .start where
  containers _ := rfl
  copied _ _ := rfl
  taken _ h := nomatch h
  distinct := .nil
  order _ := ⟨(fun h => nomatch h), (fun h => nomatch h)⟩
  aliases := rfl
  versions _ := rfl

/-! ### One contribution -/

theorem mem_sortDedup {l : List String} {e : String} : e ∈ sortDedup l ↔ e ∈ l := by
  have h := mem_sortedOnce id (S := (· = ·)) (fun _ _ => Iff.rfl) l e
  rw [List.map_id, List.map_id] at h
  exact h

/-- Sorting forgets in which order and how often the edges came. -/
theorem sortDedup_congr {l l' : List String} (h : ∀ e, e ∈ l ↔ e ∈ l') : sortDedup l = sortDedup l' := by
  have hids : ∀ e, e ∈ l.map id ↔ e ∈ l'.map id := by simpa using h
  have hmap := map_sortedOnce id (S := (· = ·)) (fun _ _ => Iff.rfl) hids
  rw [List.map_id, List.map_id] at hmap
  exact hmap

theorem mergeEdges_sortDedup (edges more : List String) : mergeEdges (sortDedup edges) more = sortDedup (edges ++ more) :=
  sortDedup_congr fun e => by rw [List.mem_append, List.mem_append, mem_sortDedup]

section Snoc
variable {shares : List (Share F)} {share : Share F} {key : String}

theorem edgesTo_snoc : edgesTo (shares ++ [share]) key = edgesTo shares key ++ share.part.edges key := by
  rw [edgesTo, List.flatMap_append, List.flatMap_singleton]
  rfl

theorem firstDeclared_snoc :
    firstDeclared (shares ++ [share]) key = (firstDeclared shares key).or (share.part.declares key) := by
  rw [firstDeclared, List.findSome?_append, List.findSome?_cons, List.findSome?_nil]
  cases share.part.declares key <;> rfl

theorem firstLocked_snoc : firstLocked (shares ++ [share]) key = (firstLocked shares key).or (share.part.locks key) := by
  rw [firstLocked, List.findSome?_append, List.findSome?_cons, List.findSome?_nil]
  cases share.part.locks key <;> rfl

variable {b b' : Building F}

theorem Built.get?_eq_none (h : Built shares b) : b.containers.get? key = none ↔ firstDeclared shares key = none := by
  rw [h.containers, Option.map_eq_none_iff]

variable {aliases : List Alias}

theorem built_copy {edges : List String} (h : Built shares b) :
    Built (shares ++ [⟨aliases, .copy key edges⟩]) ({ b with aliases := b.aliases ++ aliases }.copy key edges) := by
  have hdeclared : ∀ k, firstDeclared (shares ++ [⟨aliases, .copy key edges⟩]) k = firstDeclared shares k := fun k => by
    rw [firstDeclared_snoc, Part.declares, Option.or_none]
  have hlocked : ∀ k, firstLocked (shares ++ [⟨aliases, .copy key edges⟩]) k = firstLocked shares k := fun k => by
    rw [firstLocked_snoc, Part.locks, Option.or_none]
  have haliases : b.aliases ++ aliases = (shares ++ [(⟨aliases, .copy key edges⟩ : Share F)]).flatMap (·.aliases) := by
    rw [List.flatMap_append, List.flatMap_singleton, ← h.aliases]
  cases hget : b.containers.get? key with
  | some named =>
    have hcopy : { b with aliases := b.aliases ++ aliases }.copy key edges = { b with
        aliases := b.aliases ++ aliases
        containers := b.containers.insert key { named with startAfter := mergeEdges named.startAfter edges } } := by
      simp only [Building.copy, hget]
    rw [hcopy]
    have hmerged := h.containers key
    rw [hget] at hmerged
    obtain ⟨w, hw, hnamed⟩ := Option.map_eq_some_iff.mp hmerged.symm
    refine ⟨fun k => ?_, fun k hk => ?_, fun k hk => ?_, h.distinct, fun k => ?_, haliases, fun k => ?_⟩
    · rw [SortedMap.get?_insert, hdeclared, edgesTo_snoc, Part.edges]
      by_cases hk : key = k
      · rw [if_pos hk, if_pos hk, ← hk, hw, ← hnamed, Option.map_some, mergeEdges_sortDedup]
      · rw [if_neg hk, if_neg hk, List.append_nil, h.containers]
    · rw [hdeclared] at hk
      have hne : key ≠ k := fun heq => by rw [← heq, hw] at hk; cases hk
      rw [edgesTo_snoc, Part.edges, if_neg hne, List.append_nil]
      exact h.copied k hk
    · exact h.taken k (hdeclared k ▸ hk)
    · exact (h.order k).trans (by rw [hdeclared])
    · exact (h.versions k).trans (hlocked k).symm
  | none =>
    have hcopy : { b with aliases := b.aliases ++ aliases }.copy key edges = { b with
        aliases := b.aliases ++ aliases
        copiedEdges := b.copiedEdges.insert key ((b.copiedEdges.get? key).getD [] ++ edges) } := by
      simp only [Building.copy, hget]
    rw [hcopy]
    have hfirst := h.get?_eq_none.mp hget
    refine ⟨fun k => ?_, fun k hk => ?_, fun k hk => ?_, h.distinct, fun k => ?_, haliases, fun k => ?_⟩
    · rw [hdeclared]
      by_cases hk : key = k
      · rw [← hk, hfirst]
        exact hget
      · rw [edgesTo_snoc, Part.edges, if_neg hk, List.append_nil]
        exact h.containers k
    · rw [hdeclared] at hk
      rw [SortedMap.get?_insert, edgesTo_snoc, Part.edges]
      by_cases heq : key = k
      · rw [if_pos heq, if_pos heq, Option.getD_some, h.copied key hfirst, heq]
      · rw [if_neg heq, if_neg heq, List.append_nil, h.copied k hk]
    · rw [hdeclared] at hk
      rw [SortedMap.get?_insert, if_neg (fun heq => by rw [← heq, hfirst] at hk; cases hk)]
      exact h.taken k hk
    · exact (h.order k).trans (by rw [hdeclared])
    · exact (h.versions k).trans (hlocked k).symm

theorem built_reused (h : Built shares b) :
    Built (shares ++ [⟨aliases, .reused⟩]) { b with aliases := b.aliases ++ aliases } := by
  have hdeclared : ∀ k, firstDeclared (shares ++ [⟨aliases, .reused⟩]) k = firstDeclared shares k := fun k => by
    rw [firstDeclared_snoc, Part.declares, Option.or_none]
  have hedges : ∀ k, edgesTo (shares ++ [⟨aliases, .reused⟩]) k = edgesTo shares k := fun k => by
    rw [edgesTo_snoc, Part.edges, List.append_nil]
  refine ⟨fun k => ?_, fun k hk => ?_, fun k hk => ?_, h.distinct, fun k => ?_, ?_, fun k => ?_⟩
  · rw [hdeclared, hedges]
    exact h.containers k
  · rw [hedges]
    exact h.copied k (hdeclared k ▸ hk)
  · exact h.taken k (hdeclared k ▸ hk)
  · exact (h.order k).trans (by rw [hdeclared])
  · rw [List.flatMap_append, List.flatMap_singleton, ← h.aliases]
  · rw [firstLocked_snoc, Part.locks, Option.or_none]
    exact h.versions k

/-- The versions after one more is locked. -/
def withLock (versions : SortedMap String String) (key : String) (lock : Option String) : SortedMap String String :=
  match lock with
  | none => versions
  | some version => versions.insert key version

theorem lockVersion_eq_ok {lock : Option String} : b.lockVersion key lock = .ok b' ↔
    (∀ v ∈ lock, ∀ previous ∈ b.selectedVersions.get? key, previous = v) ∧
      { b with selectedVersions := withLock b.selectedVersions key lock } = b' := by
  cases lock with
  | none =>
    constructor
    · intro h
      cases h
      exact ⟨(fun _ h => nomatch h), rfl⟩
    · intro ⟨_, h⟩
      exact congrArg Except.ok h
  | some version =>
    unfold Building.lockVersion
    rw [ensure_bind_eq_ok]
    constructor
    · intro ⟨hprevious, h⟩
      refine ⟨fun v hv => ?_, Except.ok.inj h⟩
      cases hv
      exact hprevious
    · intro ⟨hprevious, h⟩
      exact ⟨hprevious version rfl, congrArg Except.ok h⟩

/-- The building after a declaration that nothing speaks against. -/
def Building.joined (b : Building F) (w : NewContainer F) : Building F :=
  let edges := sortDedup (w.startAfter ++ (b.copiedEdges.get? w.key).getD [])
  match b.containers.get? w.key with
  | some previous => { b with
      copiedEdges := b.copiedEdges.erase w.key
      containers := b.containers.insert w.key { previous with startAfter := mergeEdges previous.startAfter edges } }
  | none => { b with
      copiedEdges := b.copiedEdges.erase w.key
      order := b.order ++ [w.key]
      containers := b.containers.insert w.key { w with startAfter := edges } }

theorem declare_eq_ok [DecidableEq F] {w : NewContainer F} : b.declare w = .ok b' ↔
    (∀ previous ∈ b.containers.get? w.key, previous.source = w.source ∧ previous.fields = w.fields) ∧
      b.joined w = b' := by
  unfold Building.declare Building.joined
  dsimp only
  cases b.containers.get? w.key with
  | none =>
    constructor
    · intro h
      exact ⟨(fun _ h => nomatch h), Except.ok.inj h⟩
    · intro ⟨_, h⟩
      exact congrArg Except.ok h
  | some previous =>
    dsimp only
    rw [ensure_bind_eq_ok]
    constructor
    · intro ⟨hprevious, h⟩
      refine ⟨fun p hp => ?_, Except.ok.inj h⟩
      cases hp
      exact hprevious
    · intro ⟨hprevious, h⟩
      exact ⟨hprevious previous rfl, congrArg Except.ok h⟩

theorem built_joined {w : NewContainer F} {lock : Option String} (h : Built shares b)
    (hlock : ∀ v ∈ lock, ∀ previous ∈ b.selectedVersions.get? w.key, previous = v) :
    Built (shares ++ [⟨aliases, .declared w lock⟩]) ({ b with
      aliases := b.aliases ++ aliases
      selectedVersions := withLock b.selectedVersions w.key lock }.joined w) := by
  have hdeclared : ∀ k, firstDeclared (shares ++ [⟨aliases, .declared w lock⟩]) k =
      (firstDeclared shares k).or (if w.key = k then some w else none) := fun k => firstDeclared_snoc
  have hedges : ∀ k, edgesTo (shares ++ [⟨aliases, .declared w lock⟩]) k =
      edgesTo shares k ++ if w.key = k then w.startAfter else [] := fun k => edgesTo_snoc
  have haliases : b.aliases ++ aliases =
      (shares ++ [(⟨aliases, .declared w lock⟩ : Share F)]).flatMap (·.aliases) := by
    rw [List.flatMap_append, List.flatMap_singleton, ← h.aliases]
  have hversions : ∀ k, (withLock b.selectedVersions w.key lock).get? k =
      firstLocked (shares ++ [⟨aliases, .declared w lock⟩]) k := by
    intro k
    rw [firstLocked_snoc, Part.locks, ← h.versions]
    cases lock with
    | none => rw [ite_self, Option.or_none, withLock]
    | some v =>
      rw [withLock, SortedMap.get?_insert]
      by_cases hk : w.key = k
      · rw [if_pos hk, if_pos hk]
        cases hprevious : b.selectedVersions.get? k with
        | none => rfl
        | some previous => rw [hlock v rfl previous (hk ▸ hprevious), Option.some_or]
      · rw [if_neg hk, if_neg hk, Option.or_none]
  have hcopiedEdges : ∀ k, (firstDeclared (shares ++ [⟨aliases, .declared w lock⟩]) k).isSome →
      (b.copiedEdges.erase w.key).get? k = none := by
    intro k hk
    rw [SortedMap.get?_erase]
    by_cases heq : w.key = k
    · rw [if_pos heq]
    · rw [hdeclared, if_neg heq, Option.or_none] at hk
      rw [if_neg heq, h.taken k hk]
  have hwaiting : ∀ k, firstDeclared (shares ++ [⟨aliases, .declared w lock⟩]) k = none →
      ((b.copiedEdges.erase w.key).get? k).getD [] = edgesTo (shares ++ [⟨aliases, .declared w lock⟩]) k := by
    intro k hk
    obtain ⟨hfirst, hnone⟩ := Option.or_eq_none_iff.mp ((hdeclared k).symm.trans hk)
    have hne : ¬ w.key = k := fun heq => by rw [if_pos heq] at hnone; cases hnone
    rw [hedges, SortedMap.get?_erase, if_neg hne, if_neg hne, List.append_nil, h.copied k hfirst]
  cases hget : b.containers.get? w.key with
  | some previous =>
    have hjoined : { b with
        aliases := b.aliases ++ aliases
        selectedVersions := withLock b.selectedVersions w.key lock }.joined w = { b with
        aliases := b.aliases ++ aliases
        selectedVersions := withLock b.selectedVersions w.key lock
        copiedEdges := b.copiedEdges.erase w.key
        containers := b.containers.insert w.key { previous with
          startAfter := mergeEdges previous.startAfter
            (sortDedup (w.startAfter ++ (b.copiedEdges.get? w.key).getD [])) } } := by
      simp only [Building.joined, hget]
    rw [hjoined]
    have hmerged := h.containers w.key
    rw [hget] at hmerged
    obtain ⟨first, hfirst, hprevious⟩ := Option.map_eq_some_iff.mp hmerged.symm
    refine ⟨fun k => ?_, hwaiting, hcopiedEdges, h.distinct, fun k => ?_, haliases, hversions⟩
    · rw [SortedMap.get?_insert, hdeclared, hedges]
      by_cases hk : w.key = k
      · rw [if_pos hk, if_pos hk, if_pos hk, ← hk, hfirst, ← hprevious, Option.some_or, Option.map_some,
          mergeEdges_sortDedup, h.taken w.key (hfirst ▸ rfl), Option.getD_none, List.append_nil]
        congr 2
        apply sortDedup_congr
        intro e
        rw [List.mem_append, List.mem_append, mem_sortDedup]
      · rw [if_neg hk, if_neg hk, if_neg hk, Option.or_none, List.append_nil, h.containers]
    · rw [hdeclared]
      refine (h.order k).trans ?_
      by_cases hk : w.key = k
      · rw [← hk, hfirst, Option.some_or]
      · rw [if_neg hk, Option.or_none]
  | none =>
    have hjoined : { b with
        aliases := b.aliases ++ aliases
        selectedVersions := withLock b.selectedVersions w.key lock }.joined w = { b with
        aliases := b.aliases ++ aliases
        selectedVersions := withLock b.selectedVersions w.key lock
        copiedEdges := b.copiedEdges.erase w.key
        order := b.order ++ [w.key]
        containers := b.containers.insert w.key { w with
          startAfter := sortDedup (w.startAfter ++ (b.copiedEdges.get? w.key).getD []) } } := by
      simp only [Building.joined, hget]
    rw [hjoined]
    have hfirst := h.get?_eq_none.mp hget
    refine ⟨fun k => ?_, hwaiting, hcopiedEdges, ?_, fun k => ?_, haliases, hversions⟩
    · rw [SortedMap.get?_insert, hdeclared, hedges]
      by_cases hk : w.key = k
      · rw [if_pos hk, if_pos hk, if_pos hk, ← hk, hfirst, Option.none_or, Option.map_some, h.copied w.key hfirst]
        congr 2
        apply sortDedup_congr
        intro e
        rw [List.mem_append, List.mem_append, or_comm]
      · rw [if_neg hk, if_neg hk, if_neg hk, Option.or_none, List.append_nil, h.containers]
    · rw [List.nodup_append_comm]
      refine List.nodup_cons.mpr ⟨fun hmem => ?_, h.distinct⟩
      have hsome := (h.order w.key).mp hmem
      rw [hfirst] at hsome
      cases hsome
    · rw [List.mem_append, List.mem_singleton, h.order, hdeclared]
      by_cases hk : w.key = k
      · simp [hk]
      · simp [hk, Ne.symm hk]

/-! ### When contributions agree -/

/-- A contribution agrees with the first ones of its container. -/
structure Joins (shares : List (Share F)) (share : Share F) : Prop where
  source : ∀ key, ∀ w ∈ share.part.declares key, ∀ first ∈ firstDeclared shares key,
    first.source = w.source ∧ first.fields = w.fields
  version : ∀ key, ∀ v ∈ share.part.locks key, ∀ first ∈ firstLocked shares key, first = v

theorem take_spec [DecidableEq F] (h : Built shares b) :
    b.take share = .ok b' → Joins shares share ∧ Built (shares ++ [share]) b' := by
  obtain ⟨aliases, part⟩ := share
  intro htake
  cases part with
  | copy key edges =>
    cases htake
    exact ⟨⟨(fun _ _ h => nomatch h), (fun _ _ h => nomatch h)⟩, built_copy h⟩
  | reused =>
    cases htake
    exact ⟨⟨(fun _ _ h => nomatch h), (fun _ _ h => nomatch h)⟩, built_reused h⟩
  | declared w lock =>
    obtain ⟨locked, hlocked, hdeclare⟩ := bind_eq_ok.mp htake
    obtain ⟨hlock, rfl⟩ := lockVersion_eq_ok.mp hlocked
    obtain ⟨hprevious, rfl⟩ := declare_eq_ok.mp hdeclare
    refine ⟨⟨fun key w' hw' first hfirst => ?_, fun key v hv first hfirst => ?_⟩, built_joined h hlock⟩
    · rw [Part.declares] at hw'
      split at hw'
      · rename_i hkey
        cases hw'
        have hget := h.containers w.key
        rw [hkey, Option.mem_def.mp hfirst, Option.map_some] at hget
        rw [← hkey] at hget
        have hsame := hprevious _ hget
        exact hsame
      · cases hw'
    · rw [Part.locks] at hv
      split at hv
      · rename_i hkey
        have hget := h.versions w.key
        rw [hkey, Option.mem_def.mp hfirst] at hget
        rw [← hkey] at hget
        exact hlock v hv first hget
      · cases hv

theorem exists_take [DecidableEq F] (h : Built shares b) (hjoins : Joins shares share) : ∃ b', b.take share = .ok b' := by
  obtain ⟨aliases, part⟩ := share
  cases part with
  | copy key edges => exact ⟨_, rfl⟩
  | reused => exact ⟨_, rfl⟩
  | declared w lock =>
    refine ⟨_, bind_eq_ok.mpr ⟨_, lockVersion_eq_ok.mpr ⟨fun v hv previous hprevious => ?_, rfl⟩,
      declare_eq_ok.mpr ⟨fun previous hprevious => ?_, rfl⟩⟩⟩
    · apply hjoins.version w.key v _ previous
      · rw [← h.versions]
        exact hprevious
      · rw [Part.locks, if_pos rfl]
        exact hv
    · replace hprevious : b.containers.get? w.key = some previous := hprevious
      rw [h.containers] at hprevious
      obtain ⟨first, hfirst, rfl⟩ := Option.map_eq_some_iff.mp hprevious
      apply hjoins.source w.key w _ first hfirst
      rw [Part.declares, if_pos rfl]
      rfl

theorem exists_firstDeclared {s : Share F} (hs : s ∈ shares) {w : NewContainer F} (hw : w ∈ s.part.declares key) :
    ∃ first, firstDeclared shares key = some first := by
  rw [← Option.isSome_iff_exists, firstDeclared, List.findSome?_isSome_iff]
  exact ⟨s, hs, by rw [hw]; rfl⟩

theorem exists_firstLocked {s : Share F} (hs : s ∈ shares) {v : String} (hv : v ∈ s.part.locks key) :
    ∃ first, firstLocked shares key = some first := by
  rw [← Option.isSome_iff_exists, firstLocked, List.findSome?_isSome_iff]
  exact ⟨s, hs, by rw [hv]; rfl⟩

/-- Where all agree, agreeing with the first is agreeing with all. -/
theorem joins_iff (h : Consistent shares) : Joins shares share ↔ ∀ s ∈ shares, s.part.Fits share.part := by
  constructor
  · intro hjoins s hs
    refine ⟨fun key w hw w' hw' => ?_, fun key v hv v' hv' => ?_⟩
    · obtain ⟨first, hfirst⟩ := exists_firstDeclared hs hw
      obtain ⟨s₀, hs₀, hdeclares⟩ := List.exists_of_findSome?_eq_some hfirst
      obtain ⟨hsource, hfields⟩ := (h s₀ hs₀ s hs).source key first hdeclares w hw
      obtain ⟨hsource', hfields'⟩ := hjoins.source key w' hw' first hfirst
      exact ⟨hsource.symm.trans hsource', hfields.symm.trans hfields'⟩
    · obtain ⟨first, hfirst⟩ := exists_firstLocked hs hv
      obtain ⟨s₀, hs₀, hlocks⟩ := List.exists_of_findSome?_eq_some hfirst
      exact ((h s₀ hs₀ s hs).version key first hlocks v hv).symm.trans (hjoins.version key v' hv' first hfirst)
  · intro hfits
    refine ⟨fun key w hw first hfirst => ?_, fun key v hv first hfirst => ?_⟩
    · obtain ⟨s₀, hs₀, hdeclares⟩ := List.exists_of_findSome?_eq_some hfirst
      exact (hfits s₀ hs₀).source key first hdeclares w hw
    · obtain ⟨s₀, hs₀, hlocks⟩ := List.exists_of_findSome?_eq_some hfirst
      exact (hfits s₀ hs₀).version key first hlocks v hv

end Snoc

/-! ### The whole loop -/

theorem foldlM_take_spec [DecidableEq F] {rest : List (Share F)} {b' : Building F} (h : Built shares b)
    (hconsistent : Consistent shares) (hrun : rest.foldlM Building.take b = .ok b') :
    Consistent (shares ++ rest) ∧ Built (shares ++ rest) b' := by
  induction rest generalizing shares b with
  | nil =>
    cases hrun
    rw [List.append_nil]
    exact ⟨hconsistent, h⟩
  | cons share rest ih =>
    obtain ⟨next, htake, hrest⟩ := bind_eq_ok.mp hrun
    obtain ⟨hjoins, hnext⟩ := take_spec h htake
    rw [← List.singleton_append, ← List.append_assoc]
    exact ih hnext (consistent_snoc.mpr ⟨hconsistent, (joins_iff hconsistent).mp hjoins⟩) hrest

theorem exists_foldlM_take [DecidableEq F] {rest : List (Share F)} (h : Built shares b)
    (hconsistent : Consistent (shares ++ rest)) : ∃ b', rest.foldlM Building.take b = .ok b' := by
  induction rest generalizing shares b with
  | nil => exact ⟨b, rfl⟩
  | cons share rest ih =>
    rw [← List.singleton_append, ← List.append_assoc] at hconsistent
    have hfront : Consistent (shares ++ [share]) := fun s hs s' hs' =>
      hconsistent s (List.mem_append_left _ hs) s' (List.mem_append_left _ hs')
    obtain ⟨hshares, hfits⟩ := consistent_snoc.mp hfront
    obtain ⟨next, htake⟩ := exists_take h ((joins_iff hshares).mpr hfits)
    obtain ⟨b', hrest⟩ := ih (take_spec h htake).2 hconsistent
    exact ⟨b', bind_eq_ok.mpr ⟨next, htake, hrest⟩⟩

/-! ### Any order -/

/-- The loops ended with the same containers. -/
structure Building.Same (b b' : Building F) : Prop where
  containers : b.containers = b'.containers
  order : b.order.Perm b'.order
  aliases : b.aliases.Perm b'.aliases
  versions : b.selectedVersions = b'.selectedVersions

section Perm
variable {shares shares' : List (Share F)} (hperm : shares.Perm shares') (h : Consistent shares)
include hperm h

theorem firstLocked_perm (key : String) : firstLocked shares key = firstLocked shares' key := by
  cases hfirst : firstLocked shares key with
  | none =>
    symm
    rw [firstLocked, List.findSome?_eq_none_iff] at hfirst ⊢
    exact fun s hs => hfirst s (hperm.mem_iff.mpr hs)
  | some v =>
    obtain ⟨s, hs, hv⟩ := List.exists_of_findSome?_eq_some hfirst
    obtain ⟨v', hfirst'⟩ := exists_firstLocked (hperm.mem_iff.mp hs) hv
    obtain ⟨s', hs', hv'⟩ := List.exists_of_findSome?_eq_some hfirst'
    rw [hfirst', (h s hs s' (hperm.mem_iff.mpr hs')).version key v hv v' hv']

theorem merged_perm (key : String) :
    (firstDeclared shares key).map (fun w => { w with startAfter := sortDedup (edgesTo shares key) }) =
      (firstDeclared shares' key).map fun w => { w with startAfter := sortDedup (edgesTo shares' key) } := by
  have hedges : sortDedup (edgesTo shares key) = sortDedup (edgesTo shares' key) :=
    sortDedup_congr fun e => (hperm.flatMap_right _).mem_iff
  cases hfirst : firstDeclared shares key with
  | none =>
    have hfirst' : firstDeclared shares' key = none := by
      rw [firstDeclared, List.findSome?_eq_none_iff] at hfirst ⊢
      exact fun s hs => hfirst s (hperm.mem_iff.mpr hs)
    rw [hfirst']
    rfl
  | some w =>
    obtain ⟨s, hs, hw⟩ := List.exists_of_findSome?_eq_some hfirst
    obtain ⟨w', hfirst'⟩ := exists_firstDeclared (hperm.mem_iff.mp hs) hw
    obtain ⟨s', hs', hw'⟩ := List.exists_of_findSome?_eq_some hfirst'
    obtain ⟨hsource, hfields⟩ := (h s hs s' (hperm.mem_iff.mpr hs')).source key w hw w' hw'
    have hkey : w.key = w'.key := (Part.declares_key hw).1.trans (Part.declares_key hw').1.symm
    rw [hfirst', Option.map_some, Option.map_some, hkey, hsource, hfields, hedges]

theorem Built.same {b b' : Building F} (hb : Built shares b) (hb' : Built shares' b') : b.Same b' where
  containers := SortedMap.ext fun key => by rw [hb.containers, hb'.containers, merged_perm hperm h]
  order := by
    rw [List.perm_ext_iff_of_nodup hb.distinct hb'.distinct]
    intro key
    have hmerged := congrArg Option.isSome (merged_perm hperm h key)
    rw [Option.isSome_map, Option.isSome_map] at hmerged
    rw [hb.order, hb'.order, hmerged]
  aliases := by
    rw [hb.aliases, hb'.aliases]
    exact hperm.flatMap_right _
  versions := SortedMap.ext fun key => by rw [hb.versions, hb'.versions, firstLocked_perm hperm h]

end Perm

/-- The loop over the candidates, in any order of theirs. -/
theorem place_perm [DecidableEq F] {cs cs' : List (Candidate F)} (hperm : cs.Perm cs')
    (h : cs.foldlM (scope.place semver targets) .start = .ok b) :
    ∃ b', cs'.foldlM (scope.place semver targets) .start = .ok b' ∧ b.Same b' := by
  have hplace : ∀ b c b', scope.place semver targets b c = .ok b' ↔
      ∃ share, scope.shareOf semver targets c = .ok share ∧ b.take share = .ok b' := fun b c b' =>
    place_eq_ok scope semver targets
  obtain ⟨shares, hshares, hrun⟩ := (foldlM_eq_ok_iff_mapM hplace).mp h
  obtain ⟨shares', hshares', hperm'⟩ := mapM_perm hshares hperm
  obtain ⟨hconsistent, hbuilt⟩ := foldlM_take_spec built_start (fun _ h => nomatch h) hrun
  have hconsistent' : Consistent ([] ++ shares') := fun s hs s' hs' =>
    hconsistent s (hperm'.mem_iff.mpr hs) s' (hperm'.mem_iff.mpr hs')
  obtain ⟨b', hrun'⟩ := exists_foldlM_take built_start hconsistent'
  have hbuilt' := (foldlM_take_spec built_start (fun _ h => nomatch h) hrun').2
  exact ⟨b', (foldlM_eq_ok_iff_mapM hplace).mpr ⟨shares', hshares', hrun'⟩, hbuilt.same hperm' hconsistent hbuilt'⟩

end Merge

end Iii.Compose
