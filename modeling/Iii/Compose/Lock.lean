import Mathlib.Data.Finset.Basic
import Iii.Compose.Registry

/-! The lock of a compose project (`iii-compose`, `lockfile.rs`).

The compose file keeps the operator's selector of each package and the lock the concrete
result. A command loads the lock, takes over the entries that still fit their declarations,
resolves the others, and writes the lock when it changed. What is loaded was checked field by
field; what is written was not. -/
namespace Iii.Compose
open Lib
open Iii.Registry (isBlank)

/-! ### The compose file -/

inductive WorkerSource where
  | package (reference : String)
  | path (dir declared : String)
deriving DecidableEq

structure Container (Y : Type) where
  worker : WorkerSource
  version : Option String
  resolvedPackage : Option (ResolvedPackage Y)

/-- The containers in the order they are declared, and where the lock of the file is. -/
structure ComposeFile (Y : Type) where
  lockPath : String
  containers : List (String × Container Y)
  distinct : Assoc.Distinct containers

/-- A container that runs a package: its key, the reference and the selector. -/
structure Declaration where
  key : String
  reference : String
  requested : String
deriving DecidableEq

/-- What a container declares, without what is attached to it. -/
def declaration {Y : Type} (e : String × Container Y) : Option Declaration :=
  match e.2.worker with
  | .package reference => some ⟨e.1, reference, e.2.version.getD "*"⟩
  | .path _ _ => none

def packageDeclarations {Y : Type} (compose : ComposeFile Y) : List Declaration :=
  compose.containers.filterMap declaration

def Declaration.worker (d : Declaration) : String := "package://" ++ d.reference

/-! ### The lock -/

structure LockedContainer (Y : Type) where
  worker : String
  requested : String
  resolved : ResolvedPackage Y
deriving DecidableEq

/-- `graphs` are the declared members of the graph of each explicit root. -/
structure ComposeLock (Y : Type) where
  version : UInt8
  containers : SortedMap String (LockedContainer Y)
  graphs : SortedMap String (Finset String)
deriving DecidableEq

/-- `LOCKFILE_VERSION`. -/
def lockfileVersion : UInt8 := 1

/-- `serde_yaml`: it reads back what it wrote. -/
structure Yaml (Y : Type) where
  toText : ComposeLock Y → Except String String
  ofText : String → Except String (ComposeLock Y)
  toValue : Value → Option Y
  reads : ∀ lock text, toText lock = .ok text → ofText text = .ok lock

/-- `strip_prefix`. -/
def stripPrefix (start s : String) : Option String :=
  if start.toList <+: s.toList then some (String.ofList (s.toList.drop start.toList.length)) else none

def checkLocked (container target : String) (artifact : RegistryArtifact) : Except String Unit := do
  ensure (isBlank target = false) ("container '" ++ container ++ "' has an artifact with no target")
  ensure (isBlank artifact.url = false)
    ("container '" ++ container ++ "' artifact '" ++ target ++ "' has no URL")
  ensure (isSha256 artifact.sha256)
    ("container '" ++ container ++ "' artifact '" ++ target ++ "' has an invalid SHA-256")

/-- The body of the loop over the containers. -/
def checkContainer {Y : Type} (container : String) (entry : LockedContainer Y) : Except String Unit :=
  match stripPrefix "package://" entry.worker with
  | none => .error ("container '" ++ container ++ "' worker must start with package://")
  | some reference => do
    let expectedName := lastSegment '/' reference
    let expectedRegistry := (splitReference reference).1
    ensure (isBlank entry.requested = false) ("container '" ++ container ++ "' has an empty requested version")
    ensure (entry.resolved.name = expectedName) ("container '" ++ container ++ "' resolved '" ++
      entry.resolved.name ++ "', expected '" ++ expectedName ++ "'")
    ensure (entry.resolved.registry = expectedRegistry) ("container '" ++ container ++ "' resolved from '" ++
      entry.resolved.registry ++ "', expected '" ++ expectedRegistry ++ "'")
    ensure (isPathSafe entry.resolved.name)
      ("container '" ++ container ++ "' has an unsafe resolved package name")
    ensure (entry.resolved.aliasOf.all isPathSafe)
      ("container '" ++ container ++ "' has an unsafe resolved canonical package name")
    ensure (isPathSafe entry.resolved.version) ("container '" ++ container ++ "' has an unsafe resolved version")
    ensure (entry.resolved.kind = "binary" ∨ entry.resolved.kind = "bundle")
      ("container '" ++ container ++ "' has unsupported package type '" ++ entry.resolved.kind ++ "'")
    ensure (entry.resolved.artifacts.entries ≠ []) ("container '" ++ container ++ "' has no artifacts")
    forM entry.resolved.artifacts.entries fun e => checkLocked container e.1 e.2

/-- The message of the first check that fails. -/
def validateLock {Y : Type} (lock : ComposeLock Y) : Except String Unit := do
  ensure (lock.version = lockfileVersion)
    ("unsupported version " ++ toString lock.version ++ "; expected " ++ toString lockfileVersion)
  forM lock.containers.entries fun e => checkContainer e.1 e.2
  forM lock.graphs.entries fun e => ensure ((lock.containers.get? e.1).isSome)
    ("graph root '" ++ e.1 ++ "' is not a locked package container")

def validate {Y : Type} (path : String) (lock : ComposeLock Y) : Except ComposeError Unit :=
  (validateLock lock).mapError (.invalidLock path)

/-- The text of the file, when there is one. -/
def load {Y : Type} (yaml : Yaml Y) (path : String) (file : Option String) :
    Except ComposeError (Option (ComposeLock Y)) :=
  match file with
  | none => .ok none
  | some text => do
    let lock ← (yaml.ofText text).mapError (.invalidLock path)
    validate path lock
    return some lock

/-! ### Preparing a lock -/

structure PreparedLock (Y : Type) where
  path : String
  lock : ComposeLock Y
  existed : Bool
  changed : Bool
  packageChanges : Finset String

/-- The file after the write. -/
def PreparedLock.writeIfChanged {Y : Type} (yaml : Yaml Y) (prepared : PreparedLock Y) (file : Option String) :
    Except ComposeError (Option String) :=
  if prepared.changed then
    match yaml.toText prepared.lock with
    | .ok text => .ok (some text)
    | .error message => .error (.invalidLock prepared.path message)
  else .ok file

section Prepare
variable {Y : Type} [DecidableEq Y]

def runtimePackageChanged (host : Host) (previous next : ResolvedPackage Y) : Bool :=
  previous.kind ≠ next.kind || previous.defaultConfig ≠ next.defaultConfig ||
    selectedArtifact host previous.artifacts ≠ selectedArtifact host next.artifacts

/-- The entry of a previous lock that still fits its declaration. -/
def reusable (previous : Option (ComposeLock Y)) (force : Finset String) (d : Declaration) :
    Option (LockedContainer Y) :=
  (previous.bind fun lock => lock.containers.get? d.key).filter fun entry =>
    d.key ∉ force ∧ entry.worker = d.worker ∧ entry.requested = d.requested

/-- One resolution: the entry, and the registry lookup it took. -/
structure Resolution (Y : Type) where
  key : String
  entry : LockedContainer Y
  lookup : Option (String × String × String)

/-- The range that is asked for. -/
def rangeOf (selected : SortedMap String String) (d : Declaration) : String :=
  (selected.get? d.key).getD d.requested

def resolution (resolve : String → String → String → Except ComposeError (ResolvedPackage Y))
    (previous : Option (ComposeLock Y)) (force : Finset String) (selected : SortedMap String String)
    (d : Declaration) : Except ComposeError (Resolution Y) :=
  match reusable previous force d with
  | some entry => .ok ⟨d.key, entry, none⟩
  | none => do
    let resolved ← resolve d.key d.reference (rangeOf selected d)
    return ⟨d.key, ⟨d.worker, d.requested, resolved⟩, some (d.key, d.reference, rangeOf selected d)⟩

/-- The graphs of roots that are locked, with the members that are declared. -/
def keptGraphs (previous : Option (ComposeLock Y)) (containers : SortedMap String (LockedContainer Y))
    (compose : ComposeFile Y) : SortedMap String (Finset String) :=
  match previous with
  | none => .empty
  | some lock => lock.graphs.filterMap fun root nodes =>
    let nodes := nodes.filter (· ∈ compose.containers.map (·.1))
    if (containers.get? root).isSome ∧ nodes ≠ ∅ then some nodes else none

/-- The packages of the lock attached to the file's containers. -/
def ComposeFile.attach (compose : ComposeFile Y) (containers : SortedMap String (LockedContainer Y)) :
    ComposeFile Y where
  lockPath := compose.lockPath
  containers := compose.containers.map fun e =>
    (e.1, { e.2 with
      resolvedPackage := ((containers.get? e.1).map (·.resolved)).or e.2.resolvedPackage })
  distinct := by
    have hkeys : (compose.containers.map fun e => (e.1, ({ e.2 with
        resolvedPackage := ((containers.get? e.1).map (·.resolved)).or e.2.resolvedPackage } :
          Container Y))).map (·.1) = compose.containers.map (·.1) := by
      rw [List.map_map]
      rfl
    rw [Assoc.Distinct, hkeys]
    exact compose.distinct

/-- `is_none_or`: the key was not locked, or its worker would run something else. -/
def packageChanged (host : Host) (previous : Option (ComposeLock Y)) (r : Resolution Y) : Bool :=
  match previous.bind fun lock => lock.containers.get? r.key with
  | none => true
  | some old => runtimePackageChanged host old.resolved r.entry.resolved

def packageChanges (host : Host) (previous : Option (ComposeLock Y)) (resolutions : List (Resolution Y)) :
    Finset String :=
  ((resolutions.filter (packageChanged host previous)).map (·.key)).toFinset

/-- A lock candidate, the file with its packages attached, and the lookups that were made. The
first declaration that fails is the one reported. -/
structure Prepared (Y : Type) where
  lock : PreparedLock Y
  compose : ComposeFile Y
  lookups : List (String × String × String)

def prepareMetadataWithResolver
    (resolve : String → String → String → Except ComposeError (ResolvedPackage Y)) (yaml : Yaml Y) (host : Host)
    (file : Option String) (compose : ComposeFile Y) (force : Finset String)
    (selected : SortedMap String String) : Except ComposeError (Prepared Y) := do
  let previous ← load yaml compose.lockPath file
  let resolutions ← (packageDeclarations compose).mapM (resolution resolve previous force selected)
  let containers := SortedMap.ofList (resolutions.map fun r => (r.key, r.entry))
  let lock : ComposeLock Y := ⟨lockfileVersion, containers, keptGraphs previous containers compose⟩
  return {
    lock :=
      { path := compose.lockPath
        lock
        existed := previous.isSome
        changed := previous ≠ some lock
        packageChanges := packageChanges host previous resolutions }
    compose := compose.attach containers
    lookups := resolutions.filterMap (·.lookup) }

/-- `prepare_metadata_with_versions`. -/
def prepareMetadataWithVersions (yaml : Yaml Y) (host : Host) (exchange : Exchange) :
    Option String → ComposeFile Y → Finset String → SortedMap String String → Except ComposeError (Prepared Y) :=
  prepareMetadataWithResolver (resolvePackage yaml.toValue host exchange) yaml host

/-! ### A frozen start -/

/-- The first declaration the lock does not have as it is, then the first entry nothing declares. -/
def checkFrozen (compose : ComposeFile Y) (lock : ComposeLock Y) : Except ComposeError Unit := do
  forM (packageDeclarations compose) fun d =>
    match lock.containers.get? d.key with
    | none => .error (.frozenLockOutOfDate compose.lockPath
        ("container '" ++ d.key ++ "' is missing from the lock"))
    | some entry => ensure (entry.worker = d.worker ∧ entry.requested = d.requested)
        (.frozenLockOutOfDate compose.lockPath ("container '" ++ d.key ++ "' changed from " ++ entry.worker ++
          "@" ++ entry.requested ++ " to package://" ++ d.reference ++ "@" ++ d.requested))
  match lock.containers.keys.find? fun key => key ∉ (packageDeclarations compose).map (·.key) with
  | some extra => .error (.frozenLockOutOfDate compose.lockPath
      ("container '" ++ extra ++ "' exists only in the lock"))
  | none => .ok ()

def frozenLock (yaml : Yaml Y) (file : Option String) (compose : ComposeFile Y) :
    Except ComposeError (ComposeLock Y) := do
  match ← load yaml compose.lockPath file with
  | none => .error (.frozenLockMissing compose.lockPath)
  | some lock => do
    checkFrozen compose lock
    return lock

end Prepare

end Iii.Compose
