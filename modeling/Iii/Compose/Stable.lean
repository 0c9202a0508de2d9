import Mathlib.Data.List.TakeWhile
import Iii.Compose.Lock

/-! Locks that the next command can load.

An entry that is taken over was checked when its lock was loaded. An entry that is made from an
answer passes the same checks except for three that nothing made on the way: that the selector
is not blank, that compose can run a worker of this kind, and that there is an artifact, each
under a target. Where the answers meet these, the lock that is written is loaded again as it
is, and preparing it again changes nothing; where one does not, the next command stops. -/
namespace Iii.Compose
open Lib
open Iii.Registry (isBlank)

/-! ### References -/

theorem stripPrefix_append (start s : String) : stripPrefix start (start ++ s) = some s := by
  have hprefix : start.toList <+: (start ++ s).toList := by
    rw [String.toList_append]
    exact List.prefix_append _ _
  rw [stripPrefix, if_pos hprefix, String.toList_append, List.drop_left, String.ofList_toList]

theorem takeWhile_reverse_of_not_mem {α : Type} [DecidableEq α] {c : α} {l : List α} (h : c ∉ l) (rest : List α) :
    ((rest ++ c :: l).reverse.takeWhile (· ≠ c)).reverse = l := by
  have hl : ∀ a ∈ l.reverse, decide (a ≠ c) = true := by
    intro a ha
    apply decide_eq_true
    intro heq
    exact h (heq ▸ List.mem_reverse.mp ha)
  rw [List.reverse_append, List.reverse_cons, List.append_assoc, List.takeWhile_append_of_pos hl]
  simp

/-- A name without a slash is the last segment of the reference that names it. -/
theorem lastSegment_splitReference {reference : String} (h : '/' ∉ (splitReference reference).2.toList) :
    lastSegment '/' reference = (splitReference reference).2 := by
  unfold splitReference splitOnce at h ⊢
  have hspan := List.span_eq_takeWhile_dropWhile (p := fun c : Char => decide (c ≠ '/')) reference.toList
  have hsplit := List.takeWhile_append_dropWhile (p := fun c : Char => decide (c ≠ '/')) (l := reference.toList)
  rw [hspan] at h ⊢
  cases hdrop : reference.toList.dropWhile (fun c : Char => decide (c ≠ '/')) with
  | nil =>
    rw [hdrop] at h
    have hall : ∀ c ∈ reference.toList.reverse, decide (c ≠ '/') = true := fun c hc =>
      List.dropWhile_eq_nil_iff.mp hdrop c (List.mem_reverse.mp hc)
    rw [lastSegment, List.takeWhile_eq_self_iff.mpr hall, List.reverse_reverse, String.ofList_toList]
  | cons c rest =>
    rw [hdrop] at h hsplit
    have hc : c = '/' := by
      have hhead := List.head?_dropWhile_not (fun c : Char => decide (c ≠ '/')) reference.toList
      rw [hdrop] at hhead
      simpa using hhead
    subst hc
    have hrest : '/' ∉ rest := by simpa using h
    show lastSegment '/' reference = String.ofList rest
    rw [lastSegment, ← hsplit, takeWhile_reverse_of_not_mem hrest]

theorem not_mem_of_isPathSafe {value : String} (h : isPathSafe value = true) : '/' ∉ value.toList := by
  intro hmem
  simp only [isPathSafe, Bool.and_eq_true, List.all_eq_true] at h
  exact absurd (h.2 '/' hmem) (by decide)

/-! ### What the checks of a lock ask for -/

/-- What is checked of a resolved package, for the reference it was resolved from. -/
structure ResolvedPackage.Fits {Y : Type} (reference : String) (package : ResolvedPackage Y) : Prop where
  name : package.name = lastSegment '/' reference
  registry : package.registry = (splitReference reference).1
  safe : isPathSafe package.name = true
  aliasOf : package.aliasOf.all isPathSafe = true
  version : isPathSafe package.version = true
  artifacts : ∀ target artifact, package.artifacts.get? target = some artifact →
    isBlank artifact.url = false ∧ isSha256 artifact.sha256 = true

/-- What no step on the way to a written lock checks. -/
structure ResolvedPackage.Runs {Y : Type} (package : ResolvedPackage Y) : Prop where
  kind : package.kind = "binary" ∨ package.kind = "bundle"
  artifacts : package.artifacts.entries ≠ []
  targets : ∀ target, (package.artifacts.get? target).isSome → isBlank target = false

theorem checkContainer_eq_ok {Y : Type} {key reference requested : String} {package : ResolvedPackage Y} :
    checkContainer key ⟨"package://" ++ reference, requested, package⟩ = .ok () ↔
      isBlank requested = false ∧ package.Fits reference ∧ package.Runs := by
  unfold checkContainer
  simp only [stripPrefix_append, ensure_bind_eq_ok, ensure_eq_ok, forM_eq_ok, checkLocked]
  constructor
  · intro ⟨hrequested, hname, hregistry, hsafe, halias, hversion, hkind, hartifacts, hall⟩
    refine ⟨hrequested, ⟨hname, hregistry, hsafe, halias, hversion, ?_⟩, hkind, hartifacts, ?_⟩
    · intro target artifact hget
      exact (hall _ (SortedMap.mem_entries_iff.mpr hget)).2
    · intro target hsome
      obtain ⟨artifact, hget⟩ := Option.isSome_iff_exists.mp hsome
      exact (hall _ (SortedMap.mem_entries_iff.mpr hget)).1
  · intro ⟨hrequested, hfits, hruns⟩
    refine ⟨hrequested, hfits.name, hfits.registry, hfits.safe, hfits.aliasOf, hfits.version, hruns.kind,
      hruns.artifacts, ?_⟩
    intro e he
    have hget := SortedMap.mem_entries_iff.mp (show (e.1, e.2) ∈ package.artifacts.entries from he)
    obtain ⟨hurl, hsha⟩ := hfits.artifacts _ _ hget
    exact ⟨hruns.targets _ (by rw [hget]; rfl), hurl, hsha⟩

structure ValidLock {Y : Type} (lock : ComposeLock Y) : Prop where
  version : lock.version = lockfileVersion
  containers : ∀ key entry, lock.containers.get? key = some entry → checkContainer key entry = .ok ()
  graphs : ∀ root nodes, lock.graphs.get? root = some nodes → (lock.containers.get? root).isSome

theorem validateLock_eq_ok {Y : Type} {lock : ComposeLock Y} : validateLock lock = .ok () ↔ ValidLock lock := by
  unfold validateLock
  simp only [ensure_bind_eq_ok, forM_bind_eq_ok, forM_eq_ok, ensure_eq_ok]
  constructor
  · intro ⟨hversion, hcontainers, hgraphs⟩
    exact ⟨hversion, fun key entry hget => hcontainers _ (SortedMap.mem_entries_iff.mpr hget),
      fun root nodes hget => hgraphs _ (SortedMap.mem_entries_iff.mpr hget)⟩
  · intro h
    exact ⟨h.version, fun e he => h.containers e.1 e.2 (SortedMap.mem_entries_iff.mp he),
      fun e he => h.graphs e.1 e.2 (SortedMap.mem_entries_iff.mp he)⟩

theorem mapError_eq_ok {α ε ε' : Type} {f : ε → ε'} {x : Except ε α} {a : α} :
    x.mapError f = .ok a ↔ x = .ok a := by
  cases x with
  | ok b => exact ⟨fun h => congrArg Except.ok (Except.ok.inj h), fun h => congrArg Except.ok (Except.ok.inj h)⟩
  | error e => exact ⟨(fun h => nomatch h), fun h => nomatch h⟩

section Load
variable {Y : Type} {yaml : Yaml Y} {path : String} {file : Option String} {lock : ComposeLock Y}

theorem load_eq_some (h : load yaml path file = .ok (some lock)) : ValidLock lock := by
  cases file with
  | none => cases h
  | some text =>
    obtain ⟨read, -, h⟩ := bind_eq_ok.mp h
    obtain ⟨⟨⟩, hvalid, h⟩ := bind_eq_ok.mp h
    cases h
    exact Iff.mp validateLock_eq_ok (mapError_eq_ok.mp hvalid)

/-- What was written is loaded again exactly when it passes the checks. -/
theorem load_toText {text : String} (h : yaml.toText lock = .ok text) :
    load yaml path (some text) = .ok (some lock) ↔ ValidLock lock := by
  constructor
  · exact load_eq_some
  · intro hvalid
    have hread := yaml.reads lock text h
    have hcheck : validate path lock = .ok () := mapError_eq_ok.mpr (by rwa [validateLock_eq_ok])
    show ((yaml.ofText text).mapError _ >>= _) = _
    rw [hread]
    show (validate path lock >>= _) = _
    rw [hcheck]
    rfl

end Load

/-! ### Entries made from an answer -/

/-- A worker that compose can run: a bundle, or a binary that lists builds by target. -/
def ResolvedWorker.Runs (worker : ResolvedWorker) : Prop :=
  worker.kind = "bundle" ∨ (worker.kind = "binary" ∧ worker.binaries.entries ≠ [] ∧
    ∀ target, (worker.binaries.get? target).isSome → isBlank target = false)

theorem hostTarget_not_blank (host : Host) : isBlank host.hostTarget = false := by
  unfold Host.hostTarget
  cases host.target <;> rfl

theorem map_entries_ne_nil {α β : Type} {m : SortedMap String α} {f : α → β} :
    (m.map f).entries ≠ [] ↔ m.entries ≠ [] := by
  have hnil : ∀ {γ : Type} (m : SortedMap String γ), m.entries = [] ↔ ∀ k, m.get? k = none := by
    intro γ m
    constructor
    · intro h k
      rw [SortedMap.get?, h]
      rfl
    · intro h
      apply List.eq_nil_iff_forall_not_mem.mpr
      intro e he
      have hget := SortedMap.mem_entries_iff.mp (show (e.1, e.2) ∈ m.entries from he)
      rw [h] at hget
      cases hget
  rw [ne_eq, ne_eq, hnil, hnil]
  simp only [SortedMap.get?_map, Option.map_eq_none_iff]

section Answers
variable {Y : Type} {toValue : Value → Option Y} {host : Host} {exchange : Exchange}
  {key reference range : String} {package : ResolvedPackage Y}

theorem Converts.runs_iff {container registry : String} {worker : ResolvedWorker}
    (h : Converts container registry host.hostTarget worker package) : package.Runs ↔ worker.Runs := by
  obtain ⟨artifacts, hartifacts, hmap⟩ := h.artifacts
  have hruns : package.Runs ↔ (worker.kind = "binary" ∨ worker.kind = "bundle") ∧ artifacts.entries ≠ [] ∧
      ∀ target, (artifacts.get? target).isSome → isBlank target = false := by
    constructor
    · intro ⟨hkind, hsome, htargets⟩
      rw [h.kind] at hkind
      rw [hmap, map_entries_ne_nil] at hsome
      simp only [hmap, SortedMap.get?_map, Option.isSome_map] at htargets
      exact ⟨hkind, hsome, htargets⟩
    · intro ⟨hkind, hsome, htargets⟩
      constructor
      · rw [h.kind]
        exact hkind
      · rw [hmap, map_entries_ne_nil]
        exact hsome
      · simp only [hmap, SortedMap.get?_map, Option.isSome_map]
        exact htargets
  rw [hruns]
  unfold ResolvedWorker.artifacts at hartifacts
  unfold ResolvedWorker.Runs
  split at hartifacts
  · rename_i hbinary
    cases hartifacts
    simp [hbinary]
  · rename_i hbinary
    split at hartifacts
    · rename_i hbundle
      split at hartifacts
      · cases hartifacts
        have htarget : ∀ (artifact : RegistryArtifact) target,
            ((SortedMap.empty.insert host.hostTarget artifact).get? target).isSome → isBlank target = false := by
          intro artifact target hsome
          rw [SortedMap.get?_insert] at hsome
          split at hsome
          · rename_i heq
            rw [← heq]
            exact hostTarget_not_blank host
          · cases hsome
        exact ⟨fun _ => .inl hbundle, fun _ => ⟨.inr hbundle, List.cons_ne_nil _ _, htarget _⟩⟩
      · cases hartifacts
    · rename_i hbundle
      constructor
      · intro ⟨hkind, _⟩
        exact absurd hkind (not_or.mpr ⟨hbinary, hbundle⟩)
      · intro hworker
        rcases hworker with hkind | ⟨hkind, _⟩
        · exact absurd hkind hbundle
        · exact absurd hkind hbinary

/-- A package that was resolved fits its reference, and runs when its worker does. -/
theorem resolvePackage_spec (h : resolvePackage toValue host exchange key reference range = .ok package) :
    package.Fits reference ∧ ∃ response worker,
      exchange key (splitReference reference).1 (splitReference reference).2 range = .ok response ∧
      response.graph.find? (·.name = (splitReference reference).2) = some worker ∧
      (package.Runs ↔ worker.Runs) := by
  obtain ⟨worker, hresolve, hinto⟩ := bind_eq_ok.mp h
  obtain ⟨hname, hnamed⟩ := resolve_spec hresolve
  have hconverts := intoResolvedPackage_spec hinto
  have hslash : '/' ∉ (splitReference reference).2.toList := hname ▸ not_mem_of_isPathSafe hnamed.name
  refine ⟨⟨?_, hconverts.registry, ?_, ?_, ?_, hconverts.checked⟩, ?_⟩
  · rw [hconverts.name, hname, lastSegment_splitReference hslash]
  · rw [hconverts.name]
    exact hnamed.name
  · rw [hconverts.aliasOf]
    cases haliasOf : worker.aliasOf with
    | none => rfl
    | some canonical => exact hnamed.aliasOf canonical haliasOf
  · rw [hconverts.version]
    exact hnamed.version
  · obtain ⟨response, hexchange, h⟩ := bind_eq_ok.mp hresolve
    obtain ⟨⟨⟩, -, h⟩ := bind_eq_ok.mp h
    split at h
    · rename_i found hfound
      cases h
      exact ⟨response, worker, hexchange, hfound, hconverts.runs_iff⟩
    · cases h

end Answers

/-! ### What a preparation does -/

section Prepare
variable {Y : Type} [DecidableEq Y] {yaml : Yaml Y} {host : Host} {exchange : Exchange} {file : Option String}
  {compose : ComposeFile Y} {force : Finset String} {selected : SortedMap String String}
  {resolve : String → String → String → Except ComposeError (ResolvedPackage Y)} {previous : Option (ComposeLock Y)}
  {prepared : Prepared Y}

theorem declaration_key {e : String × Container Y} {d : Declaration} (h : declaration e = some d) : d.key = e.1 := by
  unfold declaration at h
  split at h
  · cases h
    rfl
  · cases h

/-- Declared keys are distinct, as those of the containers are. -/
theorem nodup_declared (compose : ComposeFile Y) : ((packageDeclarations compose).map (·.key)).Nodup := by
  have hsub : ((packageDeclarations compose).map (·.key)).Sublist (compose.containers.map (·.1)) := by
    unfold packageDeclarations
    induction compose.containers with
    | nil => exact List.Sublist.refl _
    | cons e rest ih =>
      rw [List.filterMap_cons]
      cases hd : declaration e with
      | none => exact ih.cons _
      | some d =>
        rw [List.map_cons, List.map_cons, declaration_key hd]
        exact ih.cons₂ _
  exact hsub.nodup compose.distinct

theorem reusable_eq_some {d : Declaration} {entry : LockedContainer Y} (h : reusable previous force d = some entry) :
    (∃ lock, previous = some lock ∧ lock.containers.get? d.key = some entry) ∧ d.key ∉ force ∧
      entry.worker = d.worker ∧ entry.requested = d.requested := by
  obtain ⟨hget, hfits⟩ := Option.filter_eq_some_iff.mp h
  exact ⟨Option.bind_eq_some_iff.mp hget, of_decide_eq_true hfits⟩

/-- A resolution is that of its declaration. -/
theorem resolution_fits {d : Declaration} {r : Resolution Y}
    (h : resolution resolve previous force selected d = .ok r) :
    r.key = d.key ∧ r.entry.worker = d.worker ∧ r.entry.requested = d.requested := by
  unfold resolution at h
  split at h
  · rename_i entry hreusable
    cases h
    obtain ⟨-, -, hworker, hrequested⟩ := reusable_eq_some hreusable
    exact ⟨rfl, hworker, hrequested⟩
  · obtain ⟨package, -, h⟩ := bind_eq_ok.mp h
    cases h
    exact ⟨rfl, rfl, rfl⟩

/-- What a preparation that succeeded has loaded and resolved. -/
structure Ran (resolve : String → String → String → Except ComposeError (ResolvedPackage Y)) (yaml : Yaml Y)
    (host : Host) (file : Option String) (compose : ComposeFile Y) (force : Finset String)
    (selected : SortedMap String String) (prepared : Prepared Y) (previous : Option (ComposeLock Y))
    (resolutions : List (Resolution Y)) : Prop where
  load : load yaml compose.lockPath file = .ok previous
  resolved : (packageDeclarations compose).mapM (resolution resolve previous force selected) = .ok resolutions
  path : prepared.lock.path = compose.lockPath
  version : prepared.lock.lock.version = lockfileVersion
  containers : prepared.lock.lock.containers = .ofList (resolutions.map fun r => (r.key, r.entry))
  graphs : prepared.lock.lock.graphs = keptGraphs previous prepared.lock.lock.containers compose
  changed : prepared.lock.changed = decide (previous ≠ some prepared.lock.lock)
  packageChanges : prepared.lock.packageChanges = packageChanges host previous resolutions
  lookups : prepared.lookups = resolutions.filterMap (·.lookup)

theorem ran (h : prepareMetadataWithResolver resolve yaml host file compose force selected = .ok prepared) :
    ∃ previous resolutions, Ran resolve yaml host file compose force selected prepared previous resolutions := by
  obtain ⟨previous, hload, h⟩ := bind_eq_ok.mp h
  obtain ⟨resolutions, hresolutions, h⟩ := bind_eq_ok.mp h
  cases h
  exact ⟨previous, resolutions, hload, hresolutions, rfl, rfl, rfl, rfl, rfl, rfl, rfl⟩

namespace Ran
variable {resolutions : List (Resolution Y)}
  (h : Ran resolve yaml host file compose force selected prepared previous resolutions)
include h

theorem keys : resolutions.map (·.key) = (packageDeclarations compose).map (·.key) :=
  mapM_map_eq h.resolved fun _ _ hr => (resolution_fits hr).1

theorem distinct : Assoc.Distinct (resolutions.map fun r => (r.key, r.entry)) := by
  rw [Assoc.Distinct, List.map_map]
  show (resolutions.map (·.key)).Nodup
  rw [h.keys]
  exact nodup_declared compose

/-- A declaration has the entry of its resolution. -/
theorem get?_of_mem {d : Declaration} (hd : d ∈ packageDeclarations compose) :
    ∃ r ∈ resolutions, resolution resolve previous force selected d = .ok r ∧
      prepared.lock.lock.containers.get? d.key = some r.entry := by
  obtain ⟨r, hr, hresolution⟩ := mapM_mem h.resolved hd
  refine ⟨r, hr, hresolution, ?_⟩
  rw [h.containers, SortedMap.get?_ofList h.distinct, ← (resolution_fits hresolution).1]
  exact Assoc.get?_of_mem h.distinct (List.mem_map_of_mem (f := fun r => (r.key, r.entry)) hr)

/-- An entry is that of a declaration. -/
theorem mem_of_get? {key : String} {entry : LockedContainer Y}
    (hget : prepared.lock.lock.containers.get? key = some entry) :
    ∃ d ∈ packageDeclarations compose, d.key = key ∧ ∃ r, resolution resolve previous force selected d = .ok r ∧
      r.entry = entry := by
  rw [h.containers, SortedMap.get?_ofList h.distinct] at hget
  obtain ⟨r, hr, heq⟩ := List.mem_map.mp (Assoc.mem_of_get? hget)
  obtain ⟨d, hd, hresolution⟩ := mapM_mem_right h.resolved hr
  refine ⟨d, hd, ?_, r, hresolution, congrArg Prod.snd heq⟩
  rw [← (resolution_fits hresolution).1]
  exact congrArg Prod.fst heq

theorem graphs_spec {root : String} {nodes : Finset String} (hget : prepared.lock.lock.graphs.get? root = some nodes) :
    (prepared.lock.lock.containers.get? root).isSome ∧ nodes ≠ ∅ ∧
      ∀ node ∈ nodes, node ∈ compose.containers.map (·.1) := by
  rw [h.graphs] at hget
  unfold keptGraphs at hget
  split at hget
  · cases hget
  · rw [SortedMap.get?_filterMap] at hget
    obtain ⟨old, -, hold⟩ := Option.bind_eq_some_iff.mp hget
    obtain ⟨⟨hroot, hnonempty⟩, hnodes⟩ := Option.ite_none_right_eq_some.mp hold
    cases hnodes
    exact ⟨hroot, hnonempty, fun node hnode => (Finset.mem_filter.mp hnode).2⟩

end Ran

/-! ### The same file again -/

/-- The file declares the same, whatever is attached to its containers. -/
structure ComposeFile.Same (compose₂ compose : ComposeFile Y) : Prop where
  lockPath : compose₂.lockPath = compose.lockPath
  containers : compose₂.containers.map (fun e => (e.1, e.2.worker, e.2.version)) =
    compose.containers.map fun e => (e.1, e.2.worker, e.2.version)

namespace ComposeFile.Same
variable {compose₂ : ComposeFile Y} (h : compose₂.Same compose)
include h

theorem declarations : packageDeclarations compose₂ = packageDeclarations compose := by
  have hdeclaration : ∀ compose : ComposeFile Y, packageDeclarations compose =
      (compose.containers.map fun e => (e.1, e.2.worker, e.2.version)).filterMap fun e =>
        declaration (e.1, (⟨e.2.1, e.2.2, none⟩ : Container Y)) := by
    intro compose
    rw [List.filterMap_map]
    rfl
  rw [hdeclaration, hdeclaration, h.containers]

theorem keys : compose₂.containers.map (·.1) = compose.containers.map (·.1) := by
  have hkeys : ∀ compose : ComposeFile Y, compose.containers.map (·.1) =
      (compose.containers.map fun e => (e.1, e.2.worker, e.2.version)).map (·.1) := by
    intro compose
    rw [List.map_map]
    rfl
  rw [hkeys, hkeys, h.containers]

end ComposeFile.Same

theorem runtimePackageChanged_self (package : ResolvedPackage Y) : runtimePackageChanged host package package = false := by
  simp [runtimePackageChanged]

/-- A lock that was prepared for the file has every declaration of it. -/
structure ComposeLock.Covers (lock : ComposeLock Y) (compose : ComposeFile Y) : Prop where
  version : lock.version = lockfileVersion
  entries : ∀ d ∈ packageDeclarations compose, ∃ entry, lock.containers.get? d.key = some entry ∧
    entry.worker = d.worker ∧ entry.requested = d.requested
  declared : ∀ key, (lock.containers.get? key).isSome → key ∈ (packageDeclarations compose).map (·.key)
  graphs : ∀ root nodes, lock.graphs.get? root = some nodes → (lock.containers.get? root).isSome ∧ nodes ≠ ∅ ∧
    ∀ node ∈ nodes, node ∈ compose.containers.map (·.1)

variable {resolutions : List (Resolution Y)}

theorem Ran.covers (h : Ran resolve yaml host file compose force selected prepared previous resolutions) :
    prepared.lock.lock.Covers compose where
  version := h.version
  entries d hd := by
    obtain ⟨r, -, hresolution, hget⟩ := h.get?_of_mem hd
    exact ⟨r.entry, hget, (resolution_fits hresolution).2⟩
  declared key hsome := by
    obtain ⟨entry, hget⟩ := Option.isSome_iff_exists.mp hsome
    obtain ⟨d, hd, rfl, -⟩ := h.mem_of_get? hget
    exact List.mem_map_of_mem hd
  graphs _ _ hget := h.graphs_spec hget

namespace ComposeLock.Covers
variable {lock : ComposeLock Y} {compose₂ : ComposeFile Y}

/-- It also covers the file when it is read again. -/
theorem same (h : lock.Covers compose) (hsame : compose₂.Same compose) : lock.Covers compose₂ where
  version := h.version
  entries d hd := h.entries d (hsame.declarations ▸ hd)
  declared key hsome := hsame.declarations ▸ h.declared key hsome
  graphs root nodes hget := hsame.keys ▸ h.graphs root nodes hget

/-- Every declaration finds its entry, so nothing is looked up. -/
theorem resolution_eq (h : lock.Covers compose) {d : Declaration} (hd : d ∈ packageDeclarations compose) :
    ∃ entry, lock.containers.get? d.key = some entry ∧
      resolution resolve (some lock) ∅ selected d = .ok ⟨d.key, entry, none⟩ := by
  obtain ⟨entry, hget, hworker, hrequested⟩ := h.entries d hd
  have hreusable : reusable (some lock) ∅ d = some entry := by
    apply Option.filter_eq_some_iff.mpr
    exact ⟨hget, decide_eq_true ⟨Finset.notMem_empty _, hworker, hrequested⟩⟩
  exact ⟨entry, hget, by rw [resolution, hreusable]⟩

theorem keptGraphs_eq (h : lock.Covers compose) : keptGraphs (some lock) lock.containers compose = lock.graphs := by
  apply SortedMap.ext
  intro root
  show (lock.graphs.filterMap _).get? root = _
  rw [SortedMap.get?_filterMap]
  cases hget : lock.graphs.get? root with
  | none => rfl
  | some nodes =>
    obtain ⟨hroot, hnonempty, hdeclared⟩ := h.graphs root nodes hget
    have hfilter : nodes.filter (· ∈ compose.containers.map (·.1)) = nodes := Finset.filter_true_of_mem hdeclared
    show (if _ then some _ else none) = _
    rw [hfilter, if_pos ⟨hroot, hnonempty⟩]

/-- Preparing from the lock of the file gives it back. -/
theorem prepare_again (h : lock.Covers compose) (hload : load yaml compose.lockPath file = .ok (some lock)) :
    ∃ second, prepareMetadataWithResolver resolve yaml host file compose ∅ selected = .ok second ∧
      second.lookups = [] ∧ second.lock.lock = lock ∧ second.lock.changed = false ∧
      second.lock.packageChanges = ∅ := by
  obtain ⟨resolutions, hresolutions⟩ : ∃ resolutions,
      (packageDeclarations compose).mapM (resolution resolve (some lock) ∅ selected) = .ok resolutions := by
    have hall : ∀ l : List Declaration, l ⊆ packageDeclarations compose →
        ∃ resolutions, l.mapM (resolution resolve (some lock) ∅ selected) = .ok resolutions := by
      intro l hl
      induction l with
      | nil => exact ⟨[], rfl⟩
      | cons d rest ih =>
        obtain ⟨entry, -, hd⟩ := h.resolution_eq (hl List.mem_cons_self)
        obtain ⟨resolutions, hrest⟩ := ih fun d hd => hl (List.mem_cons_of_mem _ hd)
        exact ⟨_, mapM_eq_ok.mpr (by rw [List.map_cons, List.map_cons, hd, mapM_eq_ok.mp hrest])⟩
    exact hall _ (List.Subset.refl _)
  obtain ⟨second, hsecond⟩ : ∃ second,
      prepareMetadataWithResolver resolve yaml host file compose ∅ selected = .ok second :=
    ⟨_, bind_eq_ok.mpr ⟨some lock, hload, bind_eq_ok.mpr ⟨resolutions, hresolutions, rfl⟩⟩⟩
  obtain ⟨previous, resolutions', hran⟩ := ran hsecond
  obtain rfl : some lock = previous := by
    have heq := hran.load
    rw [hload] at heq
    exact Except.ok.inj heq
  have hkept : ∀ r ∈ resolutions', lock.containers.get? r.key = some r.entry ∧ r.lookup = none := by
    intro r hr
    obtain ⟨d, hd, hr⟩ := mapM_mem_right hran.resolved hr
    obtain ⟨entry, hget, heq⟩ := h.resolution_eq hd
    rw [heq] at hr
    cases hr
    exact ⟨hget, rfl⟩
  have hcontainers : second.lock.lock.containers = lock.containers := by
    apply SortedMap.ext
    intro key
    cases hget : lock.containers.get? key with
    | some entry =>
      obtain ⟨d, hd, rfl⟩ := List.mem_map.mp (h.declared key (by rw [hget]; rfl))
      obtain ⟨r, hr, hresolution, hget'⟩ := hran.get?_of_mem hd
      rw [hget', ← hget, ← (hkept r hr).1, (resolution_fits hresolution).1]
    | none =>
      cases hget' : second.lock.lock.containers.get? key with
      | none => rfl
      | some entry =>
        obtain ⟨d, hd, rfl, -⟩ := hran.mem_of_get? hget'
        obtain ⟨entry, hentry, -⟩ := h.entries d hd
        rw [hget] at hentry
        cases hentry
  have hlock : second.lock.lock = lock := by
    have hgraphs := hran.graphs
    have hversion := hran.version
    rw [hcontainers, h.keptGraphs_eq] at hgraphs
    rw [← h.version] at hversion
    cases hs : second.lock.lock
    cases lock
    rw [hs] at hversion hcontainers hgraphs
    congr
  refine ⟨second, hsecond, ?_, hlock, ?_, ?_⟩
  · rw [hran.lookups, List.filterMap_eq_nil_iff]
    exact fun r hr => (hkept r hr).2
  · rw [hran.changed, hlock]
    simp
  · rw [hran.packageChanges, packageChanges]
    have hnone : resolutions'.filter (packageChanged host (some lock)) = [] := by
      apply List.filter_eq_nil_iff.mpr
      intro r hr
      have hsame : packageChanged host (some lock) r = false := by
        rw [packageChanged, Option.bind_some, (hkept r hr).1]
        exact runtimePackageChanged_self _
      rw [hsame]
      exact Bool.false_ne_true
    rw [hnone]
    rfl

theorem frozenLock_eq (h : lock.Covers compose) (hload : load yaml compose.lockPath file = .ok (some lock)) :
    frozenLock yaml file compose = .ok lock := by
  have hcheck : checkFrozen compose lock = .ok () := by
    apply forM_bind_eq_ok.mpr
    constructor
    · intro d hd
      obtain ⟨entry, hget, hfits⟩ := h.entries d hd
      rw [hget]
      exact ensure_eq_ok.mpr hfits
    · have hnone : (lock.containers.keys.find? fun key => key ∉ (packageDeclarations compose).map (·.key)) = none := by
        apply List.find?_eq_none.mpr
        intro key hkey
        simpa using h.declared key (SortedMap.mem_keys_iff.mp hkey)
      rw [hnone]
  refine bind_eq_ok.mpr ⟨some lock, hload, bind_eq_ok.mpr ⟨(), hcheck, rfl⟩⟩

end ComposeLock.Covers

/-! ### When the lock is stable -/

/-- Every declaration that has no entry to take over has a selector that is not blank, and is
answered with a worker that compose can run. -/
def Lockable (yaml : Yaml Y) (exchange : Exchange) (file : Option String) (compose : ComposeFile Y)
    (force : Finset String) (selected : SortedMap String String) : Prop :=
  ∀ previous, load yaml compose.lockPath file = .ok previous →
    ∀ d ∈ packageDeclarations compose, reusable previous force d = none →
      isBlank d.requested = false ∧ ∀ response worker,
        exchange d.key (splitReference d.reference).1 (splitReference d.reference).2 (rangeOf selected d) =
          .ok response →
        response.graph.find? (·.name = (splitReference d.reference).2) = some worker → worker.Runs

/-- The entries of the prepared lock pass the checks of a load exactly when the answers allow it. -/
theorem Ran.validLock_iff
    (h : Ran (resolvePackage yaml.toValue host exchange) yaml host file compose force selected prepared previous
      resolutions) :
    ValidLock prepared.lock.lock ↔ Lockable yaml exchange file compose force selected := by
  constructor
  · intro hvalid previous' hload d hd hnone
    obtain rfl : previous = previous' := Except.ok.inj (h.load.symm.trans hload)
    obtain ⟨r, -, hresolution, hget⟩ := h.get?_of_mem hd
    have hcheck := hvalid.containers _ _ hget
    rw [resolution, hnone] at hresolution
    obtain ⟨package, hpackage, hr⟩ := bind_eq_ok.mp hresolution
    cases hr
    obtain ⟨hrequested, -, hruns⟩ := checkContainer_eq_ok.mp hcheck
    obtain ⟨-, response, worker, hexchange, hfound, hiff⟩ := resolvePackage_spec hpackage
    refine ⟨hrequested, ?_⟩
    intro response' worker' hexchange' hfound'
    obtain rfl : response = response' := Except.ok.inj (hexchange.symm.trans hexchange')
    obtain rfl : worker = worker' := Option.some.inj (hfound.symm.trans hfound')
    exact hiff.mp hruns
  · intro hlockable
    refine ⟨h.version, ?_, fun root nodes hget => (h.graphs_spec hget).1⟩
    intro key entry hget
    obtain ⟨d, hd, rfl, r, hresolution, rfl⟩ := h.mem_of_get? hget
    unfold resolution at hresolution
    split at hresolution
    · rename_i entry hreusable
      cases hresolution
      obtain ⟨⟨lock, rfl, hentry⟩, -⟩ := reusable_eq_some hreusable
      exact (load_eq_some h.load).containers _ _ hentry
    · rename_i hnone
      obtain ⟨package, hpackage, hr⟩ := bind_eq_ok.mp hresolution
      cases hr
      obtain ⟨hfits, response, worker, hexchange, hfound, hiff⟩ := resolvePackage_spec hpackage
      obtain ⟨hrequested, hworker⟩ := hlockable previous h.load d hd hnone
      exact checkContainer_eq_ok.mpr ⟨hrequested, hfits, hiff.mpr (hworker response worker hexchange hfound)⟩

/-- What is written is loaded as it is exactly when it passes the checks of a load. -/
theorem Ran.load_iff (h : Ran resolve yaml host file compose force selected prepared previous resolutions)
    {file' : Option String} (hwrite : prepared.lock.writeIfChanged yaml file = .ok file') :
    Compose.load yaml compose.lockPath file' = .ok (some prepared.lock.lock) ↔ ValidLock prepared.lock.lock := by
  have hchanged := h.changed
  unfold PreparedLock.writeIfChanged at hwrite
  split at hwrite
  · split at hwrite
    · rename_i text htext
      cases hwrite
      exact load_toText htext
    · cases hwrite
  · rename_i hsame
    cases hwrite
    have hprevious : previous = some prepared.lock.lock := by
      rw [hchanged] at hsame
      simpa using hsame
    have hload := h.load
    rw [hprevious] at hload
    exact ⟨fun _ => load_eq_some hload, fun _ => hload⟩

/-- A written lock is loaded by the next command, gives itself back when it is prepared again,
and keeps of the previous one what still fits. -/
structure Stable (yaml : Yaml Y) (file : Option String) (compose : ComposeFile Y) (force : Finset String)
    (lock : ComposeLock Y) (file' : Option String) : Prop where
  loads : load yaml compose.lockPath file' = .ok (some lock)
  again : ∀ (host : Host) (exchange : Exchange) (selected : SortedMap String String) (compose₂ : ComposeFile Y),
    compose₂.Same compose → ∃ second,
      prepareMetadataWithVersions yaml host exchange file' compose₂ ∅ selected = .ok second ∧
        second.lookups = [] ∧ second.lock.lock = lock ∧ second.lock.changed = false ∧
        second.lock.packageChanges = ∅
  frozen : ∀ compose₂ : ComposeFile Y, compose₂.Same compose → frozenLock yaml file' compose₂ = .ok lock
  kept : ∀ old entry, load yaml compose.lockPath file = .ok (some old) → ∀ d ∈ packageDeclarations compose,
    old.containers.get? d.key = some entry → d.key ∉ force → entry.worker = d.worker →
      entry.requested = d.requested → lock.containers.get? d.key = some entry
  dropped : ∀ key, (lock.containers.get? key).isSome → key ∈ (packageDeclarations compose).map (·.key)
  graphs : ∀ root nodes, lock.graphs.get? root = some nodes →
    (lock.containers.get? root).isSome ∧ ∀ node ∈ nodes, node ∈ compose.containers.map (·.1)

theorem written_lock_stable {file' : Option String}
    (hprepare : prepareMetadataWithVersions yaml host exchange file compose force selected = .ok prepared)
    (hwrite : prepared.lock.writeIfChanged yaml file = .ok file') :
    Stable yaml file compose force prepared.lock.lock file' ↔
      Lockable yaml exchange file compose force selected := by
  obtain ⟨previous, resolutions, hran⟩ := ran hprepare
  have hcovers := hran.covers
  have hiff := hran.load_iff hwrite
  constructor
  · intro hstable
    exact hran.validLock_iff.mp (hiff.mp hstable.loads)
  · intro hlockable
    have hload := hiff.mpr (hran.validLock_iff.mpr hlockable)
    refine ⟨hload, ?_, ?_, ?_, hcovers.declared, ?_⟩
    · intro host exchange selected compose₂ hsame
      exact (hcovers.same hsame).prepare_again (hsame.lockPath ▸ hload)
    · intro compose₂ hsame
      exact (hcovers.same hsame).frozenLock_eq (hsame.lockPath ▸ hload)
    · intro old entry hold d hd hget hforce hworker hrequested
      obtain rfl : previous = some old := Except.ok.inj (hran.load.symm.trans hold)
      have hreusable : reusable (some old) force d = some entry :=
        Option.filter_eq_some_iff.mpr ⟨hget, decide_eq_true ⟨hforce, hworker, hrequested⟩⟩
      obtain ⟨r, -, hresolution, hlocked⟩ := hran.get?_of_mem hd
      rw [resolution, hreusable] at hresolution
      cases hresolution
      exact hlocked
    · intro root nodes hget
      obtain ⟨hroot, -, hdeclared⟩ := hcovers.graphs root nodes hget
      exact ⟨hroot, hdeclared⟩

end Prepare

/-! ### One package, and the kinds it may be of -/

/-- The project declares `console: package://console` at `next`. -/
def consoleFile : ComposeFile Unit where
  lockPath := "/srv/app/worker-compose.lock"
  containers := [("console", ⟨.package "console", some "next", none⟩)]
  distinct := List.nodup_singleton _

def consoleBuilds : SortedMap String RegistryArtifact :=
  .ofList [("x86_64-unknown-linux-gnu",
    ⟨"0123456789abcdef0123456789abcdef0123456789abcdef0123456789abcdef", "https://example.com/console.tar.gz"⟩)]

def consoleExchange (kind : String) (builds : SortedMap String RegistryArtifact) : Exchange := fun _ _ _ _ =>
  .ok ⟨[⟨"console", none, "1.0.0", kind, builds, none, none, none⟩]⟩

def consoleLock (kind : String) (builds : SortedMap String RegistryArtifact) : ComposeLock Unit :=
  ⟨1, .ofList [("console", ⟨"package://console", "next",
    ⟨"console", none, defaultRegistry, "1.0.0", kind, builds, none⟩⟩)], .empty⟩

/-- The one lock and its text. -/
def consoleYaml (lock : ComposeLock Unit) (text : String) : Yaml Unit where
  toText lock' := if lock' = lock then .ok text else .error "not this lock"
  ofText text' := if text' = text then .ok lock else .error "not this text"
  toValue _ := none
  reads lock' text' h := by
    split at h
    · rename_i heq
      cases h
      rw [if_pos rfl, heq]
    · cases h

def binaryText : String :=
  "version: 1\ncontainers:\n  console:\n    worker: package://console\n    requested: next\n    resolved:\n" ++
  "      name: console\n      version: 1.0.0\n      type: binary\n      artifacts:\n" ++
  "        x86_64-unknown-linux-gnu:\n" ++
  "          sha256: 0123456789abcdef0123456789abcdef0123456789abcdef0123456789abcdef\n" ++
  "          url: https://example.com/console.tar.gz\n"

def engineText : String :=
  "version: 1\ncontainers:\n  console:\n    worker: package://console\n    requested: next\n    resolved:\n" ++
  "      name: console\n      version: 1.0.0\n      type: engine\n      artifacts: \x7b\x7d\n"

def linux : Host := ⟨.x86_64LinuxGnu, true⟩

theorem exists_ok {α β ε : Type} {x : Except ε α} {f : α → Except ε β} (h : (x >>= f).isOk = true) :
    ∃ a b, x = .ok a ∧ f a = .ok b := by
  cases hx : x with
  | error e =>
    rw [hx] at h
    cases h
  | ok a =>
    cases hf : f a with
    | error e =>
      rw [hx] at h
      replace h : (f a).isOk = true := h
      rw [hf] at h
      cases h
    | ok b => exact ⟨a, b, rfl, hf⟩

theorem written_lock_stable_binary : ∃ prepared file',
    prepareMetadataWithVersions (consoleYaml (consoleLock "binary" consoleBuilds) binaryText) linux
      (consoleExchange "binary" consoleBuilds) none consoleFile ∅ .empty = .ok prepared ∧
    Stable (consoleYaml (consoleLock "binary" consoleBuilds) binaryText) none consoleFile ∅ prepared.lock.lock
      file' := by
  obtain ⟨prepared, file', hprepare, hwrite⟩ := exists_ok (x := prepareMetadataWithVersions
    (consoleYaml (consoleLock "binary" consoleBuilds) binaryText) linux
    (consoleExchange "binary" consoleBuilds) none consoleFile ∅ .empty) (f := fun prepared =>
      prepared.lock.writeIfChanged (consoleYaml (consoleLock "binary" consoleBuilds) binaryText) none)
    (by decide +kernel)
  refine ⟨prepared, file', hprepare, (written_lock_stable hprepare hwrite).mpr ?_⟩
  intro previous _ d hd _
  obtain rfl : d = ⟨"console", "console", "next"⟩ := List.mem_singleton.mp hd
  refine ⟨by rfl, ?_⟩
  intro response worker hexchange hfound
  cases hexchange
  obtain rfl : worker = ⟨"console", none, "1.0.0", "binary", consoleBuilds, none, none, none⟩ := by
    have hmem := List.mem_of_find?_eq_some hfound
    exact List.mem_singleton.mp hmem
  refine .inr ⟨rfl, by decide, ?_⟩
  intro target htarget
  have hkey := SortedMap.mem_keys_iff.mpr htarget
  have hkeys : consoleBuilds.keys = ["x86_64-unknown-linux-gnu"] := by rfl
  rw [hkeys, List.mem_singleton] at hkey
  rw [hkey]
  rfl

/-- The registry answers with a worker that is built into the engine: the lock is written, and the
next command cannot load it. -/
theorem engine_locked_out : ∃ prepared file',
    prepareMetadataWithVersions (consoleYaml (consoleLock "engine" .empty) engineText) linux
      (consoleExchange "engine" .empty) none consoleFile ∅ .empty = .ok prepared ∧
    prepared.lock.writeIfChanged (consoleYaml (consoleLock "engine" .empty) engineText) none = .ok file' ∧
    load (consoleYaml (consoleLock "engine" .empty) engineText) consoleFile.lockPath file' =
      .error (.invalidLock "/srv/app/worker-compose.lock"
        "container 'console' has unsupported package type 'engine'") := by
  obtain ⟨prepared, file', hprepare, hwrite⟩ := exists_ok (x := prepareMetadataWithVersions
    (consoleYaml (consoleLock "engine" .empty) engineText) linux
    (consoleExchange "engine" .empty) none consoleFile ∅ .empty) (f := fun prepared =>
      prepared.lock.writeIfChanged (consoleYaml (consoleLock "engine" .empty) engineText) none)
    (by decide +kernel)
  have hload : (prepareMetadataWithVersions (consoleYaml (consoleLock "engine" .empty) engineText) linux
      (consoleExchange "engine" .empty) none consoleFile ∅ .empty >>= fun prepared =>
      prepared.lock.writeIfChanged (consoleYaml (consoleLock "engine" .empty) engineText) none >>= fun file' =>
      load (consoleYaml (consoleLock "engine" .empty) engineText) consoleFile.lockPath file') =
      .error (.invalidLock "/srv/app/worker-compose.lock"
        "container 'console' has unsupported package type 'engine'") := by
    decide +kernel
  rw [hprepare] at hload
  replace hload : (prepared.lock.writeIfChanged (consoleYaml (consoleLock "engine" .empty) engineText) none >>=
    fun file' => load _ _ file') = _ := hload
  rw [hwrite] at hload
  exact ⟨prepared, file', hprepare, hwrite, hload⟩

end Iii.Compose
