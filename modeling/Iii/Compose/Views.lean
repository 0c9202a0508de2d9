import Iii.Compose.Plan

/-! One release, from its lock and from the registry (`iii-compose`, `registry.rs`).

A lock may be taken on one machine and read on another. What the lock says of a release and
what the registry says of it are both turned into a node, on the machine that reads, and the
planner and the lock compare the two; the artifact to install is looked up in the lock alone.
A machine runs its native target first and then perhaps others; any such list is allowed here.
The values of YAML are a parameter, with the conversions to and from those of JSON. -/
namespace Iii.Compose
open Lib
open Iii.Registry (isBlank)

/-! ### What a machine runs -/

/-- `host_targets()`, which is never empty, and whether bundles can be started (`cfg(unix)`). -/
structure Targets where
  native : String
  others : List String
  unix : Bool

def Targets.hostTargets (targets : Targets) : List String := targets.native :: targets.others

def firstAvailable {α : Type} (candidates : List String) (artifacts : SortedMap String α) : Option String :=
  candidates.find? fun target => (artifacts.get? target).isSome

/-- The triple whose build is installed: the first there is a build for, else the native one. -/
def Targets.runnableTarget {α : Type} (targets : Targets) (artifacts : SortedMap String α) : String :=
  (firstAvailable targets.hostTargets artifacts).getD targets.native

def Targets.selectedArtifact (targets : Targets) (artifacts : SortedMap String RegistryArtifact) :
    String × Option String :=
  let target := (firstAvailable targets.hostTargets artifacts).getD targets.native
  (target, (artifacts.get? target).map fun artifact => lowercase artifact.sha256)

def Targets.runtimePackageChanged {Y : Type} [DecidableEq Y] (targets : Targets)
    (previous next : ResolvedPackage Y) : Bool :=
  previous.kind ≠ next.kind || previous.defaultConfig ≠ next.defaultConfig ||
    targets.selectedArtifact previous.artifacts ≠ targets.selectedArtifact next.artifacts

def Host.targets (host : Host) (unix : Bool) : Targets := ⟨host.hostTarget, host.others, unix⟩

theorem runtimePackageChanged_targets {Y : Type} [DecidableEq Y] (host : Host) (unix : Bool)
    (previous next : ResolvedPackage Y) :
    runtimePackageChanged host previous next = (host.targets unix).runtimePackageChanged previous next := rfl

/-! ### Nodes -/

/-- `From<ResolvedWorker>`: the digest of a bundle is that of its one archive. -/
def Node.ofWorker (targets : Targets) (worker : ResolvedWorker) : Node where
  name := worker.name
  aliasOf := worker.aliasOf
  version := worker.version
  kind := worker.kind
  artifactDigest :=
    (if worker.kind = "bundle" then worker.sha256
    else (worker.binaries.get? (targets.runnableTarget worker.binaries)).map (·.sha256)).map lowercase
  defaultConfig := worker.config.filter (· ≠ .null)

/-- `From<&ResolvedPackage>`: the digest is looked up by target, whatever the kind is. `fromValue`
is `serde_json::to_value(..).ok()`. -/
def Node.ofPackage {Y : Type} (fromValue : Y → Option Value) (targets : Targets) (package : ResolvedPackage Y) :
    Node where
  name := package.name
  aliasOf := package.aliasOf
  version := package.version
  kind := package.kind
  artifactDigest :=
    (package.artifacts.get? (targets.runnableTarget package.artifacts)).map fun artifact => lowercase artifact.sha256
  defaultConfig := package.defaultConfig.bind fromValue

/-! ### Installing -/

inductive InstallError where
  | unsupportedPlatform (container name version target available : String)
  | bundleNeedsAVm (container name : String)
  | unsupportedPackageKind (container name kind : String)
deriving DecidableEq

def artifactForTarget {Y : Type} (container : String) (resolved : ResolvedPackage Y) (target : String) :
    Except InstallError RegistryArtifact :=
  match resolved.artifacts.get? target with
  | some artifact => .ok artifact
  | none => .error (.unsupportedPlatform container resolved.name resolved.version target
      (String.intercalate ", " resolved.artifacts.keys))

/-- `install_resolved` up to the artifact it downloads or has cached: `install_binary` and
`install_bundle` both begin with `artifact_for_target`. -/
def Targets.installResolved {Y : Type} (targets : Targets) (container : String) (resolved : ResolvedPackage Y) :
    Except InstallError RegistryArtifact :=
  let target := targets.runnableTarget resolved.artifacts
  if resolved.kind = "binary" then artifactForTarget container resolved target
  else if resolved.kind = "bundle" then
    if targets.unix then artifactForTarget container resolved target
    else .error (.bundleNeedsAVm container resolved.name)
  else .error (.unsupportedPackageKind container resolved.name resolved.kind)

/-! ### Looking up by target -/

section Lookup
variable {α β : Type} {targets : Targets} {artifacts : SortedMap String α} {target : String}

theorem firstAvailable_map {candidates : List String} {f : α → β} :
    firstAvailable candidates (artifacts.map f) = firstAvailable candidates artifacts := by
  unfold firstAvailable
  simp only [SortedMap.get?_map, Option.isSome_map]

theorem runnableTarget_map {f : α → β} : targets.runnableTarget (artifacts.map f) = targets.runnableTarget artifacts := by
  rw [Targets.runnableTarget, firstAvailable_map, Targets.runnableTarget]

/-- The build to install is there when any target has one. -/
theorem get?_runnableTarget_isSome :
    (artifacts.get? (targets.runnableTarget artifacts)).isSome ↔
      ∃ target ∈ targets.hostTargets, (artifacts.get? target).isSome := by
  cases hfirst : firstAvailable targets.hostTargets artifacts with
  | some target =>
    have hsome : (artifacts.get? target).isSome = true := by
      unfold firstAvailable at hfirst
      have := List.find?_some hfirst
      exact this
    rw [Targets.runnableTarget, hfirst]
    exact iff_of_true hsome ⟨target, List.mem_of_find?_eq_some hfirst, hsome⟩
  | none =>
    have hnone : ∀ target ∈ targets.hostTargets, ¬ (artifacts.get? target).isSome := by
      intro target htarget
      have := List.find?_eq_none.mp hfirst target htarget
      exact this
    rw [Targets.runnableTarget, hfirst]
    refine iff_of_false (hnone _ List.mem_cons_self) ?_
    rintro ⟨target, htarget, hsome⟩
    exact hnone target htarget hsome

/-- A lone artifact is installed when its target is among those of the host. -/
theorem runnableTarget_singleton {artifact : α} :
    targets.runnableTarget (SortedMap.empty.insert target artifact) =
      if target ∈ targets.hostTargets then target else targets.native := by
  have hget : ∀ t, ((SortedMap.empty.insert target artifact).get? t).isSome = decide (target = t) := by
    intro t
    rw [SortedMap.get?_insert]
    split
    · rename_i heq
      simp [heq]
    · rename_i hne
      simp [hne]
  unfold Targets.runnableTarget firstAvailable
  simp only [hget]
  split
  · rename_i hmem
    cases hfirst : targets.hostTargets.find? fun t => decide (target = t) with
    | some t =>
      have heq : target = t := by simpa using List.find?_some hfirst
      exact heq.symm
    | none =>
      have := List.find?_eq_none.mp hfirst target hmem
      simp at this
  · rename_i hmem
    have hnone : targets.hostTargets.find? (fun t => decide (target = t)) = none := by
      rw [List.find?_eq_none]
      intro t ht heq
      have heq : target = t := by simpa using heq
      exact hmem (heq ▸ ht)
    rw [hnone]
    rfl

theorem get?_runnableTarget_singleton {artifact : α} :
    (SortedMap.empty.insert target artifact).get? (targets.runnableTarget (SortedMap.empty.insert target artifact)) =
      if target ∈ targets.hostTargets then some artifact else none := by
  rw [runnableTarget_singleton, SortedMap.get?_insert]
  split
  · rename_i hmem
    rw [if_pos rfl]
  · rename_i hmem
    have hne : target ≠ targets.native := fun heq => hmem (heq ▸ List.mem_cons_self)
    rw [if_neg hne]
    rfl

theorem selectedArtifact_eq {artifacts : SortedMap String RegistryArtifact} :
    targets.selectedArtifact artifacts = (targets.runnableTarget artifacts,
      (artifacts.get? (targets.runnableTarget artifacts)).map fun artifact => lowercase artifact.sha256) := rfl

end Lookup

theorem lowerAscii_lowerAscii (c : Char) : lowerAscii (lowerAscii c) = lowerAscii c := by
  by_cases hupper : ('A' ≤ c && c ≤ 'Z') = true
  · have hrange : 65 ≤ c.toNat ∧ c.toNat ≤ 90 := by
      simp only [Bool.and_eq_true, decide_eq_true_eq] at hupper
      exact hupper
    have hvalid : (c.toNat + 32).isValidChar := .inl (by omega)
    have hlower : lowerAscii c = Char.ofNat (c.toNat + 32) := if_pos hupper
    rw [hlower, lowerAscii, if_neg]
    intro h
    simp only [Bool.and_eq_true, decide_eq_true_eq] at h
    have hle : (Char.ofNat (c.toNat + 32)).toNat ≤ 90 := h.2
    rw [toNat_ofNat hvalid] at hle
    omega
  · have hlower : lowerAscii c = c := if_neg hupper
    rw [hlower, hlower]

theorem lowercase_lowercase (s : String) : lowercase (lowercase s) = lowercase s := by
  unfold lowercase
  rw [String.toList_ofList, List.map_map]
  congr 1
  apply List.map_congr_left
  intro c _
  exact lowerAscii_lowerAscii c

/-! ### The two views -/

section Views
variable {Y : Type} {toValue : Value → Option Y} {fromValue : Y → Option Value} {targets : Targets}
  {container registry lockTarget : String} {worker : ResolvedWorker} {locked : ResolvedPackage Y}

/-- What a machine reads in the lock of a release, against the release itself: the two nodes are
alike, nothing seems to have been released since, and there is a build to install when the
release has one for the machine. -/
structure ViewAgrees [DecidableEq Y] (toValue : Value → Option Y) (fromValue : Y → Option Value) (targets : Targets)
    (container registry : String) (worker : ResolvedWorker) (locked : ResolvedPackage Y) : Prop where
  name : (Node.ofPackage fromValue targets locked).name = (Node.ofWorker targets worker).name
  version : (Node.ofPackage fromValue targets locked).version = (Node.ofWorker targets worker).version
  kind : (Node.ofPackage fromValue targets locked).kind = (Node.ofWorker targets worker).kind
  artifactDigest :
    (Node.ofPackage fromValue targets locked).artifactDigest = (Node.ofWorker targets worker).artifactDigest
  defaultConfig :
    (Node.ofPackage fromValue targets locked).defaultConfig = (Node.ofWorker targets worker).defaultConfig
  sameRelease : (Node.ofPackage fromValue targets locked).sameRelease (Node.ofWorker targets worker) = true
  unchanged : ∃ fresh, intoResolvedPackage toValue container registry worker targets.native = .ok fresh ∧
    targets.runtimePackageChanged locked fresh = false
  installs : (∃ artifact, targets.installResolved container locked = .ok artifact) ↔
    worker.kind = "bundle" ∨ ∃ target ∈ targets.hostTargets, (worker.binaries.get? target).isSome

/-- The package made of an answer with these artifacts. -/
def ResolvedWorker.package (toValue : Value → Option Y) (registry : String) (worker : ResolvedWorker)
    (artifacts : SortedMap String RegistryArtifact) : ResolvedPackage Y where
  name := worker.name
  aliasOf := worker.aliasOf
  registry := registry
  version := worker.version
  kind := worker.kind
  artifacts := artifacts.map fun artifact => { artifact with sha256 := lowercase artifact.sha256 }
  defaultConfig :=
    match worker.config with
    | some .null | none => none
    | some config => toValue config

theorem intoResolvedPackage_eq_ok : intoResolvedPackage toValue container registry worker lockTarget = .ok locked ↔
    ∃ artifacts, worker.artifacts container lockTarget = .ok artifacts ∧
      (∀ e ∈ artifacts.entries, isBlank e.2.url = false ∧ isSha256 e.2.sha256 = true) ∧
      locked = worker.package toValue registry artifacts := by
  have hcheck : ∀ e : String × RegistryArtifact, checkArtifact container worker e.1 e.2 = .ok () ↔
      isBlank e.2.url = false ∧ isSha256 e.2.sha256 = true := by
    intro e
    constructor
    · intro h
      obtain ⟨⟨⟩, hurl, hsha⟩ := bind_eq_ok.mp h
      exact ⟨ensure_eq_ok.mp hurl, ensure_eq_ok.mp hsha⟩
    · intro ⟨hurl, hsha⟩
      exact bind_eq_ok.mpr ⟨(), ensure_eq_ok.mpr hurl, ensure_eq_ok.mpr hsha⟩
  constructor
  · intro h
    obtain ⟨artifacts, hartifacts, h⟩ := bind_eq_ok.mp h
    obtain ⟨⟨⟩, hchecked, h⟩ := bind_eq_ok.mp h
    cases h
    exact ⟨artifacts, hartifacts, fun e he => (hcheck e).mp (forM_eq_ok.mp hchecked e he), rfl⟩
  · rintro ⟨artifacts, hartifacts, hchecked, rfl⟩
    refine bind_eq_ok.mpr ⟨artifacts, hartifacts, bind_eq_ok.mpr ⟨(), ?_, rfl⟩⟩
    exact forM_eq_ok.mpr fun e he => (hcheck e).mpr (hchecked e he)

/-- What a node says of the default configuration, when the conversions undo each other. -/
theorem defaultConfig_agrees (hread : ∀ config, (toValue config).bind fromValue = some config)
    {artifacts : SortedMap String RegistryArtifact} :
    (Node.ofPackage fromValue targets (worker.package toValue registry artifacts)).defaultConfig =
      (Node.ofWorker targets worker).defaultConfig := by
  show Option.bind (match worker.config with | some .null | none => none | some config => toValue config) fromValue =
    worker.config.filter (· ≠ .null)
  cases hconfig : worker.config with
  | none => rfl
  | some config =>
    by_cases hnull : config = .null
    · rw [hnull]
      rfl
    · have hkeep : (some config).filter (fun config => decide (config ≠ .null)) = some config := by
        simp [Option.filter, hnull]
      rw [hkeep]
      split
      · rename_i heq
        cases heq
        exact absurd rfl hnull
      · rename_i heq
        cases heq
      · rename_i heq
        cases heq
        exact hread _

/-- The artifact that is installed is the one looked up by target, on a machine that can start it. -/
theorem installResolved_eq_ok (hkind : locked.kind = "binary" ∨ locked.kind = "bundle") :
    (∃ artifact, targets.installResolved container locked = .ok artifact) ↔
      (locked.artifacts.get? (targets.runnableTarget locked.artifacts)).isSome ∧
        (locked.kind = "binary" ∨ targets.unix = true) := by
  have hlookup : (∃ artifact, artifactForTarget container locked (targets.runnableTarget locked.artifacts) =
      .ok artifact) ↔ (locked.artifacts.get? (targets.runnableTarget locked.artifacts)).isSome := by
    unfold artifactForTarget
    cases locked.artifacts.get? (targets.runnableTarget locked.artifacts) with
    | some artifact => exact iff_of_true ⟨artifact, rfl⟩ rfl
    | none =>
      refine iff_of_false ?_ Bool.false_ne_true
      rintro ⟨_, h⟩
      cases h
  unfold Targets.installResolved
  rcases hkind with hbinary | hbundle
  · simp only [if_pos hbinary]
    rw [hlookup]
    exact ⟨fun h => ⟨h, .inl hbinary⟩, And.left⟩
  · have hne : locked.kind ≠ "binary" := by
      rw [hbundle]
      decide
    simp only [if_neg hne, if_pos hbundle]
    cases targets.unix with
    | true =>
      simp only [if_true]
      rw [hlookup]
      exact ⟨fun h => ⟨h, .inr trivial⟩, And.left⟩
    | false => simp [hne]

theorem Targets.runtimePackageChanged_self [DecidableEq Y] (package : ResolvedPackage Y) :
    targets.runtimePackageChanged package package = false := by
  simp [Targets.runtimePackageChanged]

theorem selectedArtifact_of_unchanged [DecidableEq Y] {previous next : ResolvedPackage Y}
    (h : targets.runtimePackageChanged previous next = false) :
    targets.selectedArtifact previous.artifacts = targets.selectedArtifact next.artifacts := by
  simpa using (Bool.or_eq_false_iff.mp h).2

theorem Node.sameRelease_self {a b : Node} (hversion : a.version = b.version) (hkind : a.kind = b.kind)
    (hdigest : a.artifactDigest = b.artifactDigest) (hconfig : a.defaultConfig = b.defaultConfig) :
    a.sameRelease b = true := by
  simp [Node.sameRelease, hversion, hkind, hdigest, hconfig]

section Agreement
variable [DecidableEq Y]

/-- What is left to show for a lock that a machine would have taken itself. -/
theorem agrees_of_own (hread : ∀ config, (toValue config).bind fromValue = some config)
    {artifacts : SortedMap String RegistryArtifact}
    (h : intoResolvedPackage toValue container registry worker targets.native =
      .ok (worker.package toValue registry artifacts))
    (hdigest : (Node.ofPackage fromValue targets (worker.package toValue registry artifacts)).artifactDigest =
      (Node.ofWorker targets worker).artifactDigest)
    (hinstalls : (∃ artifact, targets.installResolved container (worker.package toValue registry artifacts) =
      .ok artifact) ↔ worker.kind = "bundle" ∨ ∃ target ∈ targets.hostTargets, (worker.binaries.get? target).isSome) :
    ViewAgrees toValue fromValue targets container registry worker (worker.package toValue registry artifacts) where
  name := rfl
  version := rfl
  kind := rfl
  artifactDigest := hdigest
  defaultConfig := defaultConfig_agrees hread
  sameRelease := Node.sameRelease_self rfl rfl hdigest (defaultConfig_agrees hread)
  unchanged := ⟨_, h, targets.runtimePackageChanged_self _⟩
  installs := hinstalls

theorem agrees_binary (hread : ∀ config, (toValue config).bind fromValue = some config)
    (hkind : worker.kind = "binary")
    (h : intoResolvedPackage toValue container registry worker lockTarget = .ok locked) :
    ViewAgrees toValue fromValue targets container registry worker locked := by
  have hne : worker.kind ≠ "bundle" := by
    rw [hkind]
    decide
  have hartifacts : ∀ target, worker.artifacts container target = .ok worker.binaries := fun _ => if_pos hkind
  obtain ⟨artifacts, hlocked, hchecked, rfl⟩ := intoResolvedPackage_eq_ok.mp h
  rw [hartifacts] at hlocked
  cases hlocked
  refine agrees_of_own hread (intoResolvedPackage_eq_ok.mpr ⟨_, hartifacts _, hchecked, rfl⟩) ?_ ?_
  · show Option.map _ ((worker.binaries.map _).get? (targets.runnableTarget (worker.binaries.map _))) =
      ((if worker.kind = "bundle" then worker.sha256 else _) : Option String).map lowercase
    rw [if_neg hne, runnableTarget_map, SortedMap.get?_map, Option.map_map, Option.map_map]
    congr 1
    funext artifact
    exact lowercase_lowercase artifact.sha256
  · rw [installResolved_eq_ok (.inl hkind)]
    show ((worker.binaries.map _).get? (targets.runnableTarget (worker.binaries.map _))).isSome ∧ _ ↔ _
    rw [runnableTarget_map, SortedMap.get?_map, Option.isSome_map, get?_runnableTarget_isSome]
    exact ⟨fun h => .inr h.1, fun h => ⟨h.resolve_left hne, .inl hkind⟩⟩

/-- The archive of a bundle is found, and looks unchanged, exactly under the native target. -/
theorem agrees_bundle (hread : ∀ config, (toValue config).bind fromValue = some config)
    (hkind : worker.kind = "bundle")
    (h : intoResolvedPackage toValue container registry worker lockTarget = .ok locked) :
    ViewAgrees toValue fromValue targets container registry worker locked ↔
      targets.unix = true ∧ lockTarget = targets.native := by
  have hne : worker.kind ≠ "binary" := by
    rw [hkind]
    decide
  obtain ⟨artifacts, hlocked, hchecked, rfl⟩ := intoResolvedPackage_eq_ok.mp h
  rw [ResolvedWorker.artifacts, if_neg hne, if_pos hkind] at hlocked
  cases hurl : worker.archiveUrl with
  | none =>
    rw [hurl] at hlocked
    cases hlocked
  | some url =>
  cases hsha : worker.sha256 with
  | none =>
    rw [hurl, hsha] at hlocked
    cases hlocked
  | some sha256 =>
  rw [hurl, hsha] at hlocked
  cases hlocked
  have hartifacts : ∀ target, worker.artifacts container target =
      .ok (SortedMap.empty.insert target ⟨sha256, url⟩) := by
    intro target
    rw [ResolvedWorker.artifacts, if_neg hne, if_pos hkind, hurl, hsha]
  have hfound : (∃ artifact, targets.installResolved container (worker.package toValue registry
      (SortedMap.empty.insert lockTarget ⟨sha256, url⟩)) = .ok artifact) ↔
      lockTarget ∈ targets.hostTargets ∧ targets.unix = true := by
    rw [installResolved_eq_ok (.inr hkind)]
    show ((SortedMap.map _ _).get? (targets.runnableTarget (SortedMap.map _ _))).isSome ∧ _ ↔ _
    rw [runnableTarget_map, SortedMap.get?_map, Option.isSome_map, get?_runnableTarget_singleton]
    split
    · rename_i hmem
      exact ⟨fun h => ⟨hmem, h.2.resolve_left hne⟩, fun h => ⟨rfl, .inr h.2⟩⟩
    · rename_i hmem
      exact ⟨fun h => absurd h.1 Bool.false_ne_true, fun h => absurd h.1 hmem⟩
  constructor
  · intro hagrees
    obtain ⟨hmem, hunix⟩ := hfound.mp (hagrees.installs.mpr (.inl hkind))
    refine ⟨hunix, ?_⟩
    obtain ⟨fresh, hfresh, hunchanged⟩ := hagrees.unchanged
    obtain ⟨own, hown, -, rfl⟩ := intoResolvedPackage_eq_ok.mp hfresh
    rw [hartifacts] at hown
    cases hown
    have hselected := congrArg Prod.fst (selectedArtifact_of_unchanged hunchanged)
    rw [selectedArtifact_eq, selectedArtifact_eq] at hselected
    have hnative : targets.native ∈ targets.hostTargets := List.mem_cons_self
    have htarget : targets.runnableTarget (SortedMap.map _ (SortedMap.empty.insert lockTarget _)) =
      targets.runnableTarget (SortedMap.map _ (SortedMap.empty.insert targets.native _)) := hselected
    rw [runnableTarget_map, runnableTarget_map, runnableTarget_singleton, runnableTarget_singleton, if_pos hmem,
      if_pos hnative] at htarget
    exact htarget
  · rintro ⟨hunix, rfl⟩
    have hmem : targets.native ∈ targets.hostTargets := List.mem_cons_self
    refine agrees_of_own hread h ?_ ?_
    · show Option.map _ ((SortedMap.map _ _).get? (targets.runnableTarget (SortedMap.map _ _))) =
        ((if worker.kind = "bundle" then worker.sha256 else _) : Option String).map lowercase
      rw [if_pos hkind, hsha, runnableTarget_map, SortedMap.get?_map, get?_runnableTarget_singleton, if_pos hmem]
      exact congrArg some (lowercase_lowercase sha256)
    · exact iff_of_true (hfound.mpr ⟨hmem, hunix⟩) (.inl hkind)

/-- A release of a kind that compose runs is seen alike through its lock and afresh when it is a
binary, or when the lock was taken for the native target of the machine that reads it. -/
theorem locked_view_agrees (hread : ∀ config, (toValue config).bind fromValue = some config)
    (hkind : worker.kind = "binary" ∨ worker.kind = "bundle")
    (h : intoResolvedPackage toValue container registry worker lockTarget = .ok locked) :
    ViewAgrees toValue fromValue targets container registry worker locked ↔
      worker.kind = "binary" ∨ (targets.unix = true ∧ lockTarget = targets.native) := by
  rcases hkind with hbinary | hbundle
  · exact iff_of_true (agrees_binary hread hbinary h) (.inl hbinary)
  · have hne : worker.kind ≠ "binary" := by
      rw [hbundle]
      decide
    rw [agrees_bundle hread hbundle h, or_iff_right hne]

end Agreement

end Views

/-! ### A binary and a bundle, on two machines -/

def releaseDigest : String := "0123456789ABCDEF0123456789abcdef0123456789abcdef0123456789abcdef"

def shellRelease : ResolvedWorker where
  name := "shell"
  aliasOf := none
  version := "1.0.0"
  kind := "binary"
  binaries := .ofList [("x86_64-unknown-linux-gnu", ⟨releaseDigest, "https://example.com/shell.tar.gz"⟩)]
  archiveUrl := none
  sha256 := none
  config := some (.bool true)

def docsRelease : ResolvedWorker where
  name := "docs"
  aliasOf := none
  version := "1.0.0"
  kind := "bundle"
  binaries := .empty
  archiveUrl := some "https://example.com/docs.tar.gz"
  sha256 := some releaseDigest
  config := none

/-- A static build of the daemon on a machine with glibc. -/
def staticLinux : Targets := ⟨"x86_64-unknown-linux-musl", ["x86_64-unknown-linux-gnu"], true⟩

theorem locked_view_agrees_shell : ∃ locked : ResolvedPackage Value,
    intoResolvedPackage some "shell" defaultRegistry shellRelease "aarch64-apple-darwin" = .ok locked ∧
    ViewAgrees some some staticLinux "shell" defaultRegistry shellRelease locked := by
  have hlocked : intoResolvedPackage some "shell" defaultRegistry shellRelease "aarch64-apple-darwin" =
      .ok (shellRelease.package some defaultRegistry shellRelease.binaries) := by
    rfl
  exact ⟨_, hlocked, (locked_view_agrees (fun _ => rfl) (.inl rfl) hlocked).mpr (.inl rfl)⟩

/-- A bundle locked on one machine and read on another: no digest, another release by the look of
it, and no archive to install. -/
theorem bundle_read_elsewhere : ∃ locked fresh : ResolvedPackage Value,
    intoResolvedPackage some "docs" defaultRegistry docsRelease "aarch64-apple-darwin" = .ok locked ∧
    intoResolvedPackage some "docs" defaultRegistry docsRelease staticLinux.native = .ok fresh ∧
    (Node.ofWorker staticLinux docsRelease).artifactDigest = some (lowercase releaseDigest) ∧
    (Node.ofPackage some staticLinux locked).artifactDigest = none ∧
    (Node.ofPackage some staticLinux locked).sameRelease (Node.ofWorker staticLinux docsRelease) = false ∧
    staticLinux.runtimePackageChanged locked fresh = true ∧
    staticLinux.installResolved "docs" locked =
      .error (.unsupportedPlatform "docs" "docs" "1.0.0" "x86_64-unknown-linux-musl" "aarch64-apple-darwin") ∧
    ¬ ViewAgrees some some staticLinux "docs" defaultRegistry docsRelease locked := by
  refine ⟨docsRelease.package some defaultRegistry (SortedMap.empty.insert "aarch64-apple-darwin"
      ⟨releaseDigest, "https://example.com/docs.tar.gz"⟩),
    docsRelease.package some defaultRegistry (SortedMap.empty.insert staticLinux.native
      ⟨releaseDigest, "https://example.com/docs.tar.gz"⟩),
    by decide +kernel, by decide +kernel, by decide +kernel, by decide +kernel, by decide +kernel,
    by decide +kernel, by decide +kernel, ?_⟩
  intro hagrees
  have hdigest := hagrees.artifactDigest
  revert hdigest
  decide +kernel

end Iii.Compose
