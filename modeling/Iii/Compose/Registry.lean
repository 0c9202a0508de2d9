import Mathlib.Data.String.Basic
import Iii.Json.Text
import Iii.Lib.SortedMap
import Iii.Registry.Operations

/-! What the registry of packages answers, and what is taken from it (`iii-compose`,
`registry.rs`).

A compose file names a package by reference and by a version selector; the registry answers
with a graph of workers. The names and versions of the whole graph are checked, the named
worker is found in it, and what it says is turned into the package that a lock keeps. The
exchange itself, with its retries and its fallback to another platform, is a parameter. -/
namespace Iii.Compose
open Lib
open Iii.Registry (isBlank)

inductive ComposeError where
  | invalidLock (path message : String)
  | frozenLockMissing (path : String)
  | frozenLockOutOfDate (path message : String)
  | packageNotResolved (container name range message : String)
  | registryUnreachable (container registry message : String)
  | registryNameRefused (container registry field value : String)
  | dependencyCycle (path : String)
  | invalidWorkerSpec (spec reason : String)
deriving DecidableEq

/-! ### References -/

def defaultRegistry : String := "https://api.workers.iii.dev"

/-- `split_once`. -/
def splitOnce (c : Char) (s : String) : Option (String × String) :=
  match s.toList.span (· ≠ c) with
  | (_, []) => none
  | (before, _ :: after) => some (String.ofList before, String.ofList after)

/-- `rsplit(c).next()`. -/
def lastSegment (c : Char) (s : String) : String :=
  String.ofList (s.toList.reverse.takeWhile (· ≠ c)).reverse

/-- A reference without a host uses the default registry. -/
def splitReference (reference : String) : String × String :=
  match splitOnce '/' reference with
  | some (host, name) => ("https://" ++ host, name)
  | none => (defaultRegistry, reference)

def isPathSafe (value : String) : Bool :=
  value ≠ "" && value ≠ ".." && value.toList.head? ≠ some '.' &&
    value.toList.all fun c => c.isAlphanum || ['.', '_', '-'].contains c

/-! ### Artifacts -/

structure RegistryArtifact where
  sha256 : String
  url : String
deriving DecidableEq

def isHexDigit (c : Char) : Bool :=
  ('0' ≤ c && c ≤ '9') || ('a' ≤ c && c ≤ 'f') || ('A' ≤ c && c ≤ 'F')

/-- 64 bytes, every one an ASCII hex digit. -/
def isSha256 (s : String) : Bool := s.utf8ByteSize = 64 && s.toList.all isHexDigit

/-- `make_ascii_lowercase`. -/
def lowerAscii (c : Char) : Char := if 'A' ≤ c && c ≤ 'Z' then Char.ofNat (c.toNat + 32) else c

def lowercase (s : String) : String := String.ofList (s.toList.map lowerAscii)

/-- What the daemon was built for. -/
inductive Target where
  | x86_64LinuxMusl
  | x86_64LinuxGnu
  | aarch64LinuxGnu
  | x86_64Darwin
  | aarch64Darwin
  | x86_64Windows
  | aarch64Windows
  | unknown

def Target.triple : Target → String
  | .x86_64LinuxMusl => "x86_64-unknown-linux-musl"
  | .x86_64LinuxGnu => "x86_64-unknown-linux-gnu"
  | .aarch64LinuxGnu => "aarch64-unknown-linux-gnu"
  | .x86_64Darwin => "x86_64-apple-darwin"
  | .aarch64Darwin => "aarch64-apple-darwin"
  | .x86_64Windows => "x86_64-pc-windows-msvc"
  | .aarch64Windows => "aarch64-pc-windows-msvc"
  | .unknown => "unknown"

/-- A glibc host has its loader and not that of musl. -/
structure Host where
  target : Target
  glibcHost : Bool

/-- `host_target()`. -/
def Host.hostTarget (host : Host) : String := host.target.triple

/-- `runnable_targets`, after the native one. -/
def Host.others (host : Host) : List String :=
  if host.hostTarget = "x86_64-unknown-linux-musl" ∧ host.glibcHost then ["x86_64-unknown-linux-gnu"] else []

/-- `host_targets()`: every triple this host can run, the preferred first. -/
def Host.hostTargets (host : Host) : List String := host.hostTarget :: host.others

/-- The build this host runs: its triple and lowercase digest, of the first target there is one
for, else of the host's own. -/
def selectedArtifact (host : Host) (artifacts : SortedMap String RegistryArtifact) : String × Option String :=
  let target := (host.hostTargets.find? fun target => (artifacts.get? target).isSome).getD host.hostTarget
  (target, (artifacts.get? target).map fun artifact => lowercase artifact.sha256)

/-! ### Workers -/

/-- A worker of the answer; the edges of the graph are not read here. -/
structure ResolvedWorker where
  name : String
  aliasOf : Option String
  version : String
  kind : String
  binaries : SortedMap String RegistryArtifact
  archiveUrl : Option String
  sha256 : Option String
  config : Option Value

structure ResolveResponse where
  graph : List ResolvedWorker

/-- What a lock keeps; `Y` are the values of YAML. -/
structure ResolvedPackage (Y : Type) where
  name : String
  aliasOf : Option String
  registry : String
  version : String
  kind : String
  artifacts : SortedMap String RegistryArtifact
  defaultConfig : Option Y
deriving DecidableEq

/-- The exchange with a registry, for a container: the worker's name and the selector. -/
abbrev Exchange : Type := (container registry name range : String) → Except ComposeError ResolveResponse

def checkNames (container registry : String) (resolved : ResolveResponse) : Except ComposeError Unit :=
  forM resolved.graph fun worker => do
    ensure (isPathSafe worker.name) (.registryNameRefused container registry "name" worker.name)
    ensure (isPathSafe worker.version) (.registryNameRefused container registry "version" worker.version)
    match worker.aliasOf with
    | some aliasOf => ensure (isPathSafe aliasOf) (.registryNameRefused container registry "alias_of" aliasOf)
    | none => pure ()

def resolve (exchange : Exchange) (container registry name range : String) :
    Except ComposeError ResolvedWorker := do
  let resolved ← exchange container registry name range
  checkNames container registry resolved
  match resolved.graph.find? (·.name = name) with
  | some worker => return worker
  | none =>
    throw (.packageNotResolved container name range "the registry resolved a graph that does not contain it")

/-- The artifacts of an answer by kind; kinds that compose does not run have none. -/
def ResolvedWorker.artifacts (worker : ResolvedWorker) (container target : String) :
    Except ComposeError (SortedMap String RegistryArtifact) :=
  if worker.kind = "binary" then .ok worker.binaries
  else if worker.kind = "bundle" then
    match worker.archiveUrl, worker.sha256 with
    | some url, some sha256 => .ok (SortedMap.empty.insert target ⟨sha256, url⟩)
    | _, _ =>
      .error (.packageNotResolved container worker.name worker.version
        ("the registry resolved it as a bundle but sent no archive_url + " ++
          "sha256 pair, so the archive could not be verified"))
  else .ok .empty

def checkArtifact (container : String) (worker : ResolvedWorker) (target : String)
    (artifact : RegistryArtifact) : Except ComposeError Unit := do
  ensure (isBlank artifact.url = false) (.packageNotResolved container worker.name worker.version
    ("the registry returned an empty URL for " ++ target))
  ensure (isSha256 artifact.sha256) (.packageNotResolved container worker.name worker.version
    ("the registry returned an invalid SHA-256 digest for " ++ target))

/-- `toValue` is `serde_yaml::to_value(..).ok()`. -/
def intoResolvedPackage {Y : Type} (toValue : Value → Option Y) (container registry : String)
    (worker : ResolvedWorker) (target : String) : Except ComposeError (ResolvedPackage Y) := do
  let artifacts ← worker.artifacts container target
  forM artifacts.entries fun e => checkArtifact container worker e.1 e.2
  return {
    name := worker.name
    aliasOf := worker.aliasOf
    registry := registry
    version := worker.version
    kind := worker.kind
    artifacts := artifacts.map fun artifact => { artifact with sha256 := lowercase artifact.sha256 }
    defaultConfig :=
      match worker.config with
      | some .null | none => none
      | some config => toValue config }

def resolvePackage {Y : Type} (toValue : Value → Option Y) (host : Host) (exchange : Exchange)
    (container reference range : String) : Except ComposeError (ResolvedPackage Y) := do
  let worker ← resolve exchange container (splitReference reference).1 (splitReference reference).2 range
  intoResolvedPackage toValue container (splitReference reference).1 worker host.hostTarget

/-! ### What an answer that was let through is like -/

section Answers
variable {Y : Type} {toValue : Value → Option Y} {host : Host} {exchange : Exchange}
  {container registry name reference range target : String} {worker : ResolvedWorker}
  {package : ResolvedPackage Y}

/-- A worker that passed the checks of its names. -/
structure ResolvedWorker.Named (worker : ResolvedWorker) : Prop where
  name : isPathSafe worker.name = true
  version : isPathSafe worker.version = true
  aliasOf : ∀ canonical, worker.aliasOf = some canonical → isPathSafe canonical = true

theorem resolve_spec (h : resolve exchange container registry name range = .ok worker) :
    worker.name = name ∧ worker.Named := by
  obtain ⟨resolved, -, h⟩ := bind_eq_ok.mp h
  obtain ⟨⟨⟩, hnames, h⟩ := bind_eq_ok.mp h
  split at h
  · rename_i found hfound
    cases h
    have hname : worker.name = name := by simpa using List.find?_some hfound
    have hchecks := forM_eq_ok.mp hnames worker (List.mem_of_find?_eq_some hfound)
    obtain ⟨⟨⟩, hsafe, hchecks⟩ := bind_eq_ok.mp hchecks
    obtain ⟨⟨⟩, hversion, halias⟩ := bind_eq_ok.mp hchecks
    refine ⟨hname, ensure_eq_ok.mp hsafe, ensure_eq_ok.mp hversion, ?_⟩
    intro canonical hcanonical
    rw [hcanonical] at halias
    exact ensure_eq_ok.mp halias
  · cases h

theorem isHexDigit_iff {c : Char} : isHexDigit c = true ↔ (48 ≤ c.toNat ∧ c.toNat ≤ 57) ∨
    (97 ≤ c.toNat ∧ c.toNat ≤ 102) ∨ (65 ≤ c.toNat ∧ c.toNat ≤ 70) := by
  unfold isHexDigit
  simp only [Bool.or_eq_true, Bool.and_eq_true, decide_eq_true_eq, or_assoc]
  exact Iff.rfl

theorem toNat_ofNat {n : Nat} (h : n.isValidChar) : (Char.ofNat n).toNat = n := by
  rw [Char.ofNat, dif_pos h]
  rfl

theorem isHexDigit_lowerAscii {c : Char} (h : isHexDigit c = true) : isHexDigit (lowerAscii c) = true := by
  unfold lowerAscii
  split
  · rename_i hupper
    have hrange : 65 ≤ c.toNat ∧ c.toNat ≤ 90 := by
      simp only [Bool.and_eq_true, decide_eq_true_eq] at hupper
      exact hupper
    have hvalid : (c.toNat + 32).isValidChar := .inl (by omega)
    rw [isHexDigit_iff] at h
    rw [isHexDigit_iff, toNat_ofNat hvalid]
    omega
  · exact h

theorem utf8Len_of_hex {l : List Char} (h : l.all isHexDigit = true) : String.utf8Len l = l.length := by
  induction l with
  | nil => rfl
  | cons c rest ih =>
    obtain ⟨hc, hrest⟩ := Bool.and_eq_true_iff.mp h
    have hsize : c.utf8Size = 1 := by
      apply Char.utf8Size_eq_one_iff.mpr
      have hnat : c.toNat ≤ 127 := by
        rw [isHexDigit_iff] at hc
        omega
      exact hnat
    rw [String.utf8Len_cons, ih hrest, hsize, List.length_cons]

/-- The lowercase digest of an ASCII digest has as many bytes, all of them hex digits. -/
theorem isSha256_lowercase {s : String} (h : isSha256 s = true) : isSha256 (lowercase s) = true := by
  obtain ⟨hsize, hhex⟩ := Bool.and_eq_true_iff.mp h
  have hhex' : (s.toList.map lowerAscii).all isHexDigit = true := by
    rw [List.all_eq_true] at hhex ⊢
    intro c hc
    obtain ⟨c', hc', rfl⟩ := List.mem_map.mp hc
    exact isHexDigit_lowerAscii (hhex c' hc')
  have hlen : s.toList.length = 64 := by
    rw [← utf8Len_of_hex hhex, ← String.utf8ByteSize_ofList, String.ofList_toList]
    exact of_decide_eq_true hsize
  unfold isSha256 lowercase
  rw [String.toList_ofList, hhex', String.utf8ByteSize_ofList, utf8Len_of_hex hhex', List.length_map, hlen]
  rfl

/-- The artifacts of a package are those of the answer, each with its digest in lower case. -/
structure Converts (container registry target : String) (worker : ResolvedWorker)
    (package : ResolvedPackage Y) : Prop where
  name : package.name = worker.name
  aliasOf : package.aliasOf = worker.aliasOf
  registry : package.registry = registry
  version : package.version = worker.version
  kind : package.kind = worker.kind
  artifacts : ∃ artifacts, worker.artifacts container target = .ok artifacts ∧
    package.artifacts = artifacts.map fun artifact => { artifact with sha256 := lowercase artifact.sha256 }
  checked : ∀ target artifact, package.artifacts.get? target = some artifact →
    isBlank artifact.url = false ∧ isSha256 artifact.sha256 = true

theorem intoResolvedPackage_spec
    (h : intoResolvedPackage toValue container registry worker target = .ok package) :
    Converts container registry target worker package := by
  obtain ⟨artifacts, hartifacts, h⟩ := bind_eq_ok.mp h
  obtain ⟨⟨⟩, hchecked, h⟩ := bind_eq_ok.mp h
  cases h
  refine ⟨rfl, rfl, rfl, rfl, rfl, ⟨artifacts, hartifacts, rfl⟩, ?_⟩
  intro target artifact hget
  rw [SortedMap.get?_map, Option.map_eq_some_iff] at hget
  obtain ⟨answered, hanswered, rfl⟩ := hget
  have hcheck := forM_eq_ok.mp hchecked _ (SortedMap.mem_entries_iff.mpr hanswered)
  obtain ⟨⟨⟩, hurl, hsha⟩ := bind_eq_ok.mp hcheck
  exact ⟨ensure_eq_ok.mp hurl, isSha256_lowercase (ensure_eq_ok.mp hsha)⟩

end Answers

end Iii.Compose
