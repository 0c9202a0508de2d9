import Mathlib.Data.Prod.Lex
import Iii.Compose.Lock
import Iii.Lib.Graph
import Iii.Lib.Lists

/-! Which containers a request for workers writes (`iii-compose`, `dependencies.rs`).

Every requested worker is expanded to the graph of its package, and the graphs overlap: two
of them reach one package, by its own name or by an alias, one reaches a worker that was
requested as well, or one that the compose file already declares. The planner chooses one
container for each package, rewrites the edges to the chosen containers, merges the
declarations that meet in one, and lists what is reachable from the request with
dependencies first. The crate `semver` is a parameter. -/
namespace Iii.Compose
open Lib

/-! ### Packages and declarations -/

/-- A package of a resolved graph. -/
structure Node where
  name : String
  aliasOf : Option String
  version : String
  kind : String
  artifactDigest : Option String
  defaultConfig : Option Value

def Node.canonicalName (node : Node) : String := node.aliasOf.getD node.name

def Node.sameRelease (node other : Node) : Bool :=
  node.version = other.version && node.kind = other.kind && node.artifactDigest = other.artifactDigest &&
    node.defaultConfig = other.defaultConfig

/-- A registry and the name of a package in it. -/
abbrev Identity : Type := String ×ₗ String

/-- A range that was freshly resolved is not the exact version that runs. -/
structure Package where
  registry : String
  node : Node
  exactVersion : Bool

def Package.identity (package : Package) : Identity := toLex (package.registry, package.node.canonicalName)

inductive Source where
  | package (reference : String) (version : Option String)
  | path (path : String)
deriving DecidableEq

/-- A container to write; `F` are its explicit fields. -/
structure NewContainer (F : Type) where
  key : String
  source : Source
  startAfter : List String
  fields : F
deriving DecidableEq

/-- `root` marks the worker that was requested, as opposed to a node that its graph reaches. -/
structure Candidate (F : Type) where
  declaration : NewContainer F
  package : Option Package
  root : Bool

structure Alias where
  container : String
  reference : String
  canonical : String
deriving DecidableEq

structure Plan (F : Type) where
  containers : List (NewContainer F)
  aliases : List Alias
  selectedVersions : SortedMap String String

def conflict (name reason : String) : ComposeError := .invalidWorkerSpec name reason

/-! ### Following an update -/

/-- The crate `semver`; a version is read as its major, minor and patch number. -/
structure Semver where
  Req : Type
  version : String → Option (Nat × Nat × Nat)
  requirement : String → Option Req
  accepts : Req → Nat × Nat × Nat → Bool

/-- The declarations an update may move. -/
structure UpdateScope where
  declared : SortedMap String Source
  generated : Finset String

/-- Whether a requirement refuses a version. A prerelease is compared as the release it leads to. -/
def Semver.refuses (semver : Semver) (selector version : String) : Bool :=
  match semver.requirement selector, semver.version version with
  | some requirement, some parsed => !semver.accepts requirement parsed
  | _, _ => false

/-- How a declared dependency follows the release its graph selected: the declaration to write,
and the exact version when the lock moves. -/
def UpdateScope.follow (update : UpdateScope) (semver : Semver) (key : String) (current resolved : Package) :
    Except ComposeError (Source × Option String) :=
  let version := resolved.node.version
  match update.declared.get? key with
  | some (.package reference selector) =>
    let selectorText := selector.getD "*"
    let exact := (semver.version selectorText).isSome
    let unchanged := current.node.sameRelease resolved.node
    if exact = true ∧ key ∈ update.generated then
      .ok (.package reference (some version), some version)
    else if exact then
      if unchanged then .ok (.package reference selector, none)
      else if current.node.version = version then
        .error (conflict key ("the compose file pins '" ++ key ++ "' to " ++ selectorText ++
          ", but the updated dependency graph needs another artifact or default configuration of " ++ version ++
          ". Run compose::update worker=" ++ key ++ " first"))
      else
        .error (conflict key ("the compose file pins '" ++ key ++ "' to " ++ selectorText ++
          ", but the updated dependency graph needs " ++ version ++
          ". Run compose::update worker=" ++ key ++ "@" ++ version ++ " first"))
    else if semver.refuses selectorText version then
      .error (conflict key ("the compose file declares '" ++ key ++ "' as " ++ selectorText ++
        ", but the updated dependency graph needs " ++ version ++
        ". Change the selector or run compose::update worker=" ++ key ++ "@" ++ version ++ " first"))
    else if unchanged then .ok (.package reference selector, none)
    else .ok (.package reference selector, some version)
  | _ => .error (conflict key "the declared dependency is not a registry package")

/-! ### Who runs a package -/

section Choose
variable {F : Type}

def requestedBy (asked : List (NewContainer F)) : SortedMap String (NewContainer F) :=
  .ofList (asked.map fun worker => (worker.key, worker))

/-- The requested workers that run a package, under their keys. -/
def rootPackages (expanded : List (Candidate F)) : List (String × Package) :=
  expanded.filterMap fun candidate =>
    if candidate.root then candidate.package.map (candidate.declaration.key, ·) else none

/-- The nodes that the graphs reach, under their names. -/
def nodePackages (expanded : List (Candidate F)) : List (String × Package) :=
  expanded.filterMap fun candidate =>
    if candidate.root then none else candidate.package.map (candidate.declaration.key, ·)

/-- The containers that run a package, for every package. -/
abbrev Owners : Type := SortedMap Identity (SortedMap String Package)

/-- `entry(..).or_default().insert(..)`. -/
def Owners.add (owners : Owners) (e : String × Package) : Owners :=
  owners.insert e.2.identity (((owners.get? e.2.identity).getD .empty).insert e.1 e.2)

/-- What is declared, and then every requested worker. -/
def ownersOf (existing : SortedMap String Package) (roots : List (String × Package)) : Owners :=
  roots.foldl Owners.add (existing.entries.foldl Owners.add .empty)

/-- The nodes of one package that no request names; there is at least one. -/
structure Group where
  first : Package
  later : List Package

def Group.packages (group : Group) : List Package := group.first :: group.later

def Group.push (group : Option Group) (package : Package) : Group :=
  match group with
  | none => ⟨package, []⟩
  | some group => ⟨group.first, group.later ++ [package]⟩

/-- A node with the name of a requested worker is the same package at the same release. -/
def checkCopy (roots : SortedMap String Package) (key : String) (package : Package) : Except ComposeError Unit :=
  match roots.get? key with
  | some root =>
    if root.identity = package.identity ∧ root.node.sameRelease package.node then .ok ()
    else if root.identity = package.identity then
      let versions := if root.node.version = package.node.version then ""
        else " (" ++ root.node.version ++ " and " ++ package.node.version ++ ")"
      .error (conflict key ("the requested container resolves to different versions, artifacts, " ++
        "or default configurations in the dependency graphs" ++ versions))
    else
      .error (conflict key
        "the requested container and a dependency with the same name resolve to different packages")
  | none =>
    .error (conflict key
      "the requested container and a dependency with the same name resolve to different packages")

/-- The packages that need a container of their own choice, or an error when a node and the
request of its name disagree. -/
def automaticOf (requested : SortedMap String (NewContainer F)) (roots : SortedMap String Package)
    (nodes : List (String × Package)) : Except ComposeError (SortedMap Identity Group) :=
  nodes.foldlM (fun automatic e =>
    if (requested.get? e.1).isNone then
      .ok (automatic.insert e.2.identity (.push (automatic.get? e.2.identity) e.2))
    else (checkCopy roots e.1 e.2).map fun _ => automatic) .empty

/-- What the choice of containers looks at. -/
structure Scope (F : Type) where
  requested : SortedMap String (NewContainer F)
  existing : SortedMap String Package
  existingKeys : Finset String
  update : Option UpdateScope
  owners : Owners

variable (scope : Scope F)

def Scope.choices (identity : Identity) : SortedMap String Package := (scope.owners.get? identity).getD .empty

/-- Whether a node of the package, or a container that runs it, goes by an alias. -/
def Scope.aliasesUsed (identity : Identity) (group : Group) : Bool :=
  group.packages.any (·.node.aliasOf.isSome) ||
    (scope.choices identity).entries.any fun e => e.2.node.aliasOf.isSome

/-- The containers whose release is the one needed. An update may take any declared container
when there is none. -/
def Scope.compatible (identity : Identity) (release : Node) : List String :=
  let choices := scope.choices identity
  let matching := (choices.entries.filter fun e => e.2.exactVersion && release.sameRelease e.2.node).map (·.1)
  if matching = [] ∧ scope.update.isSome then
    choices.keys.filter fun key => (scope.requested.get? key).isNone
  else matching

/-- The container of a package. -/
def Scope.select (identity : Identity) (group : Group) : Except ComposeError String :=
  let release := group.first.node
  let name := (ofLex identity).2
  if group.packages.any fun package => !release.sameRelease package.node then
    .error (conflict name ("aliases of '" ++ name ++
      "' resolve to different versions, artifacts, or default configurations. " ++
      "Align the dependency versions before adding or updating these workers"))
  else if scope.aliasesUsed identity group = false ∧
      (scope.existing.get? release.name).map (·.identity) = some identity then
    -- Without aliases an ordinary declared dependency keeps its pin.
    .ok release.name
  else
    match scope.compatible identity release with
    | [key] => .ok key
    | [] =>
      if (scope.choices identity).entries ≠ [] then
        .error (conflict name ("dependency '" ++ name ++ "' at version '" ++ release.version ++
          "' conflicts with the declared instances. " ++
          "Pin matching exact versions and artifacts before adding or updating this worker"))
      else if name ∈ scope.existingKeys ∨ (scope.requested.get? name).isSome then
        .error (conflict name ("the canonical dependency name is already used by another container. " ++
          "Keep that declaration and choose an unambiguous dependency"))
      else .ok name
    | keys =>
      .error (conflict name ("dependency '" ++ name ++ "' matches multiple declared containers: " ++
        ", ".intercalate keys ++
        ". Keep their settings and select a single dependency instance before adding or updating this worker"))

/-- The containers of the packages that need one. -/
def Scope.choose (expanded : List (Candidate F)) : Except ComposeError (SortedMap Identity String) := do
  let automatic ← automaticOf scope.requested (.ofList (rootPackages expanded)) (nodePackages expanded)
  automatic.traverse scope.select

/-- The container that a candidate's name stands for. A package without one cannot be: every
node that no request names was chosen for. -/
def Scope.targetKey (selected : SortedMap Identity String) (key : String) (package : Package) : String :=
  if (scope.requested.get? key).isSome then key else (selected.get? package.identity).getD key

def Scope.targetsOf (selected : SortedMap Identity String) (expanded : List (Candidate F)) :
    SortedMap Identity String :=
  .ofList (expanded.filterMap fun candidate => candidate.package.map fun package =>
    (toLex (package.registry, candidate.declaration.key),
      scope.targetKey selected candidate.declaration.key package))

end Choose

/-! ### Edges -/

/-- `sort` and `dedup`. -/
def sortDedup (l : List String) : List String := sortedOnce id (· = ·) l

def mergeEdges (startAfter edges : List String) : List String := sortDedup (startAfter ++ edges)

/-- The container of a name as a registry spells it; a name that no graph resolved is left. -/
def target (targets : SortedMap Identity String) (registry name : String) : String :=
  (targets.get? (toLex (registry, name))).getD name

/-- Rewrites names of the registry to the containers chosen for them. -/
def retarget (startAfter : List String) (registry : String) (targets : SortedMap Identity String)
    (key originalKey : String) : Except ComposeError (List String) :=
  startAfter.mapM fun dependency => do
    let dependency := target targets registry dependency
    ensure (dependency ≠ key) (.dependencyCycle (originalKey ++ " -> " ++ key))
    return dependency

/-! ### Merging the declarations -/

section Merge
variable {F : Type} [DecidableEq F]

/-- What the loop over the candidates has built. `copiedEdges` are those of nodes whose requested
worker has not come yet. -/
structure Building (F : Type) where
  containers : SortedMap String (NewContainer F)
  copiedEdges : SortedMap String (List String)
  order : List String
  aliases : List Alias
  selectedVersions : SortedMap String String

def Building.start : Building F := ⟨.empty, .empty, [], [], .empty⟩

def dropHttps : (rounds : Nat) → List Char → List Char
  | 0, cs => cs
  | n + 1, cs => if "https://".toList <+: cs then dropHttps n (cs.drop 8) else cs

/-- `trim_start_matches("https://")`, which strips as often as it can. -/
def trimHttps (registry : String) : String := String.ofList (dropHttps registry.length registry.toList)

def aliasOf (package : Package) (key : String) : Option Alias :=
  package.node.aliasOf.map fun canonical =>
    ⟨key, trimHttps package.registry ++ "/" ++ package.node.name, canonical⟩

/-- The edges of a node join the requested worker of its name, or wait for it. -/
def Building.copy (b : Building F) (key : String) (edges : List String) : Building F :=
  match b.containers.get? key with
  | some named =>
    let named := { named with startAfter := mergeEdges named.startAfter edges }
    { b with containers := b.containers.insert key named }
  | none => { b with copiedEdges := b.copiedEdges.insert key ((b.copiedEdges.get? key).getD [] ++ edges) }

def Building.lockVersion (b : Building F) (key : String) (lock : Option String) :
    Except ComposeError (Building F) :=
  match lock with
  | none => .ok b
  | some version => do
    ensure (∀ previous ∈ b.selectedVersions.get? key, previous = version)
      (conflict key "the dependency resolves to conflicting exact versions")
    return { b with selectedVersions := b.selectedVersions.insert key version }

/-- The fields and edges that the request gives are the declaration's. -/
def explicitly (explicit : Option (NewContainer F)) (declaration : NewContainer F) : NewContainer F :=
  match explicit with
  | some explicit =>
    { declaration with fields := explicit.fields, startAfter := declaration.startAfter ++ explicit.startAfter }
  | none => declaration

/-- A declaration is a new container, or joins the one of its key. -/
def Building.declare (b : Building F) (declaration : NewContainer F) : Except ComposeError (Building F) :=
  let copied := (b.copiedEdges.get? declaration.key).getD []
  let b := { b with copiedEdges := b.copiedEdges.erase declaration.key }
  let declaration := { declaration with startAfter := sortDedup (declaration.startAfter ++ copied) }
  match b.containers.get? declaration.key with
  | some previous => do
    ensure (previous.source = declaration.source ∧ previous.fields = declaration.fields)
      (conflict declaration.key "the dependency resolves to conflicting sources, versions, or settings")
    let merged := { previous with startAfter := mergeEdges previous.startAfter declaration.startAfter }
    return { b with containers := b.containers.insert declaration.key merged }
  | none =>
    .ok { b with
      order := b.order ++ [declaration.key]
      containers := b.containers.insert declaration.key declaration }

/-- The source to write for a declaration and the version to lock; none when the container is
declared already and stays as it is. -/
def Scope.sourceOf (scope : Scope F) (semver : Semver) (explicit : Option (NewContainer F)) (key : String)
    (package : Package) (source : Source) : Except ComposeError (Option (Source × Option String)) :=
  if explicit.isSome then .ok (some (source, some package.node.version))
  else
    match scope.existing.get? key, scope.update with
    | some _, none => .ok none
    | some current, some update => (update.follow semver key current package).map some
    | none, _ =>
      .ok (some (.package (trimHttps package.registry ++ "/" ++ package.node.canonicalName)
        (some package.node.version), some package.node.version))

/-- One candidate. -/
def Scope.place (scope : Scope F) (semver : Semver) (targets : SortedMap Identity String) (b : Building F)
    (candidate : Candidate F) : Except ComposeError (Building F) :=
  let declaration := candidate.declaration
  let explicit := if candidate.root then scope.requested.get? declaration.key else none
  match candidate.package with
  | none => b.declare (explicitly explicit declaration)
  | some package => do
    let key := target targets package.registry declaration.key
    let b := { b with aliases := b.aliases ++ (aliasOf package key).toList }
    if candidate.root = false ∧ (scope.requested.get? key).isSome then
      let edges ← retarget declaration.startAfter package.registry targets key declaration.key
      return b.copy key edges
    else
      match ← scope.sourceOf semver explicit key package declaration.source with
      | none => return b
      | some (source, lock) => do
        let b ← b.lockVersion key lock
        let edges ← retarget declaration.startAfter package.registry targets key declaration.key
        b.declare (explicitly explicit { declaration with key := key, source := source, startAfter := edges })

end Merge

/-! ### Listing the plan -/

section Finish
variable {F : Type}

/-- What a container waits for. -/
def edgesOf (containers : SortedMap String (NewContainer F)) (key : String) : List String :=
  ((containers.get? key).map (·.startAfter)).getD []

/-- A node is taken from the stack at most once for each time it was put there. -/
def reachableFrom (containers : SortedMap String (NewContainer F)) (asked : List (NewContainer F)) : Finset String :=
  reach (edgesOf containers) (asked.length + (containers.entries.map (·.2.startAfter.length)).sum)
    (asked.map (·.key)).reverse ∅

/-- Takes the first container that waits for none of those left; one is taken each time, so
`order.length` rounds take them all. -/
def sortContainers : (rounds : Nat) → List String → SortedMap String (NewContainer F) →
    Except ComposeError (List (NewContainer F))
  | 0, _, _ => .ok []
  | n + 1, order, containers =>
    match order.find? fun key => (edgesOf containers key).all fun dep => (containers.get? dep).isNone with
    | none => .error (.dependencyCycle (" -> ".intercalate order))
    | some key =>
      (sortContainers n (order.erase key) (containers.erase key)).map ((containers.get? key).toList ++ ·)

/-- Only what the request reaches is written: a reused container owns its dependencies. -/
def Building.finish (b : Building F) (asked : List (NewContainer F)) : Except ComposeError (Plan F) := do
  let reachable := reachableFrom b.containers asked
  let order := b.order.filter (· ∈ reachable)
  let containers := b.containers.filter fun key _ => key ∈ reachable
  let sorted ← sortContainers order.length order containers
  return {
    containers := sorted
    aliases := b.aliases.filter (·.container ∈ reachable)
    selectedVersions := b.selectedVersions.filter fun key _ => key ∈ reachable }

end Finish

/-- What the choice looks at: every root is registered before any node is. -/
def scopeOf {F : Type} (asked : List (NewContainer F)) (expanded : List (Candidate F))
    (existing : SortedMap String Package) (existingKeys : Finset String) (update : Option UpdateScope) : Scope F :=
  ⟨requestedBy asked, existing, existingKeys, update, ownersOf existing (rootPackages expanded)⟩

/-- Requested workers own their keys; every other package is given a container before the
candidates are placed, so that no order of theirs decides. -/
def planResolved {F : Type} [DecidableEq F] (semver : Semver) (asked : List (NewContainer F))
    (expanded : List (Candidate F)) (existing : SortedMap String Package) (existingKeys : Finset String)
    (update : Option UpdateScope) : Except ComposeError (Plan F) := do
  let scope := scopeOf asked expanded existing existingKeys update
  let selected ← scope.choose expanded
  let built ← expanded.foldlM (scope.place semver (scope.targetsOf selected expanded)) Building.start
  built.finish asked

end Iii.Compose
