import Iii.Lib.Machine

/-! The configuration store (`engine/src/workers/configuration/store.rs`) over a local adapter
(`adapters/fs.rs`).

The store keeps a cache of what the adapter holds, and overrides that are only in memory. Every
operation holds `write_lock` from its start to its end; what it does in between is a point. The
watcher takes edits into the adapter without that lock, at any time, and queues what it found.

An operation reads the store's own maps only while it has the lock, so a section that reads and
one that writes them are one step where no call of the adapter stands between them. -/
namespace Iii.Configuration
open Lib

/-- What the store does with values and schemas: `accepts` is `validate_against_schema` on the
expanded value, or true where a variable is missing. -/
structure Values (V : Type) where
  null : V
  accepts : V → V → Bool

structure Entry (V : Type) where
  id : String
  name : String
  description : String
  schema : V
  value : V
  metadata : Option V
deriving DecidableEq

inductive ExternalChange (V : Type) where
  | registered (entry : Entry V)
  | updated (entry : Entry V)
  | deleted (entry : Entry V)
deriving DecidableEq

namespace ExternalChange
variable {V : Type}

def entry : ExternalChange V → Entry V
  | registered entry => entry
  | updated entry => entry
  | deleted entry => entry

def id (change : ExternalChange V) : String := change.entry.id

/-- The value the change would install. -/
def value : ExternalChange V → Option V
  | registered entry => some entry.value
  | updated entry => some entry.value
  | deleted _ => none

end ExternalChange

inductive StoreError where
  | notRegistered (id : String)
  | invalidId (id : String)
  | schemaInvalid
  | schemaUnavailable (id : String)
  | adapter
deriving DecidableEq

inductive EnsureAction where
  | seeded | preserved | registered
deriving DecidableEq

inductive MigrateAction where
  | migrated | preserved | missing
deriving DecidableEq

/-- The input of `register`, where `initial` is its initial value, and of `ensure`, where it is
the candidate. -/
structure Registration (V : Type) where
  id : String
  name : String
  description : String
  schema : V
  initial : Option V
  metadata : Option V

def Registration.entry {V : Type} (r : Registration V) (value : V) : Entry V where
  id := r.id
  name := r.name
  description := r.description
  schema := r.schema
  value
  metadata := r.metadata

inductive Request (V : Type) where
  | register (r : Registration V)
  | ensure (r : Registration V)
  | set (id : String) (value : V)
  | setMemory (id : String) (value : V)
  | migrate (source target : String)
  | delete (id : String)
  /-- `apply_external` of the change that was queued first. -/
  | deliver

/-- Why an entry is registered. -/
inductive Purpose where
  /-- `register` with an initial value. -/
  | given
  /-- `register` with none. -/
  | kept
  | ensured (action : EnsureAction)
deriving DecidableEq

/-- What the holder of `write_lock` is about to do. -/
inductive Point (V : Type) where
  | registering (entry : Entry V) (purpose : Purpose)
  | registered (entry : Entry V) (purpose : Purpose) (created : Bool)
  | setting (id : String) (value : V)
  | stored (entry : Entry V) (old : V)
  | deleting (id : String)
  | deleted (id : String) (removed : Option (Entry V))
  | migrating (source target : String)
  | migrated (source target : String) (action : MigrateAction) (entry : Option (Entry V))
  /-- The adapter failed: the ids that are still to be read again. -/
  | reconciling (ids : List String)
  | delivering (change : ExternalChange V)
  | delivered (change : ExternalChange V) (current : Option (Entry V))

/-- How the adapter answers. A migration that breaks off may have read its source again and may
have committed its destination. -/
inductive Outcome (V : Type) where
  | done
  | failed
  | migrated (entry : Entry V)
  | preserved (entry : Entry V)
  | missing
  | broken (source target : Option (Entry V))

/-- A file that the watcher finds new, changed or gone. -/
inductive Edit (V : Type) where
  | put (fresh : Entry V)
  | remove (id : String)

inductive Act (V : Type) where
  | request (q : Request V)
  | call (o : Outcome V)
  | finish
  | edit (e : Edit V)

/-- What an operation returns. -/
inductive Report (V : Type) where
  | registered (created : Bool) (entry : Entry V)
  | ensured (action : EnsureAction) (created : Bool) (entry : Entry V)
  | set (entry : Entry V) (old : Option V)
  | migrated (action : MigrateAction) (entry active : Option (Entry V))
  | deleted (removed : Option (Entry V))
  | applied (id : String) (fanout : Bool)
  | failed (error : StoreError)

/-- The last three fields are history: what the adapter has held for an id since the store last
wrote it, newest first; the value that was stored when the store last wrote, overrode or migrated it; and
whether the last change of it to be delivered was fanned out. -/
structure State (V : Type) where
  adapter : String → Option (Entry V)
  entries : String → Option (Entry V)
  runtimeValues : String → Option V
  queue : List (ExternalChange V)
  running : Option (Point V)
  recent : String → List (Option (Entry V))
  origin : String → Option V
  fanned : String → Bool

def validateId (id : String) : Bool :=
  id ≠ "" && id.utf8ByteSize ≤ 64 &&
    id.toList.all fun c => c.isLower || c.isDigit || c == '-' || c == '_'

namespace State
variable {V : Type} [DecidableEq V]

/-- A primed cache. -/
def primed (stored : String → Option (Entry V)) : State V where
  adapter := stored
  entries := stored
  runtimeValues := fun _ => none
  queue := []
  running := none
  recent := fun id => [stored id]
  origin := fun id => (stored id).map (·.value)
  fanned := fun _ => false

/-! ### Writes -/

/-- The store writes the adapter. -/
def commit (s : State V) (id : String) (entry : Option (Entry V)) : State V :=
  { s with
    adapter := Function.update s.adapter id entry
    recent := Function.update s.recent id [entry]
    origin := Function.update s.origin id (entry.map (·.value)) }

/-- The store has found an id missing. -/
def settle (s : State V) (id : String) : State V :=
  { s with origin := Function.update s.origin id none }

/-- The watcher does, and queues the change. -/
def capture (s : State V) (id : String) (entry : Option (Entry V)) (change : ExternalChange V) : State V :=
  { s with
    adapter := Function.update s.adapter id entry
    recent := Function.update s.recent id (entry :: s.recent id)
    queue := s.queue ++ [change] }

def cache (s : State V) (id : String) (entry : Option (Entry V)) : State V :=
  { s with entries := Function.update s.entries id entry }

def override (s : State V) (id : String) (value : Option V) : State V :=
  { s with runtimeValues := Function.update s.runtimeValues id value }

def goto (s : State V) (point : Option (Point V)) : State V := { s with running := point }

/-! ### Requests -/

variable (J : Values V)

def defaultEntry (id : String) : Entry V where
  id := id
  name := id
  description := ""
  schema := J.null
  value := J.null
  metadata := none

def activeEntry (s : State V) (id : String) : Option (Entry V) :=
  match s.runtimeValues id with
  | none => s.entries id
  | some value => some { (s.entries id).getD (defaultEntry J id) with value := value }

/-- The operation fails before it has called the adapter. -/
def refuse (s : State V) (error : StoreError) : State V × Option (Report V) := (s, some (.failed error))

def register (s : State V) (r : Registration V) : State V × Option (Report V) :=
  if !validateId r.id then s.refuse (.invalidId r.id) else
  match r.initial with
  | some v =>
    if J.accepts r.schema v then (s.goto (some (.registering (r.entry v) .given)), none)
    else s.refuse .schemaInvalid
  | none =>
    let value := match s.entries r.id with
      | some existing => existing.value
      | none => J.null
    (s.goto (some (.registering (r.entry value) .kept)), none)

/-- `ensure_local`. -/
def ensure (s : State V) (r : Registration V) : State V × Option (Report V) :=
  if !validateId r.id then s.refuse (.invalidId r.id) else
  let prior := (s.entries r.id).filter fun prior => prior.value ≠ J.null
  match prior, r.initial with
  | some prior, _ => (s.goto (some (.registering (r.entry prior.value) (.ensured .preserved))), none)
  | none, some v =>
    if J.accepts r.schema v then (s.goto (some (.registering (r.entry v) (.ensured .seeded))), none)
    else s.refuse .schemaInvalid
  | none, none => (s.goto (some (.registering (r.entry J.null) (.ensured .registered))), none)

def set (s : State V) (id : String) (value : V) : State V × Option (Report V) :=
  if !validateId id then s.refuse (.invalidId id) else
  match s.entries id with
  | none => s.refuse (.notRegistered id)
  | some entry =>
    if entry.schema = J.null then s.refuse (.schemaUnavailable id)
    else if J.accepts entry.schema value then (s.goto (some (.setting id value)), none)
    else s.refuse .schemaInvalid

/-- The whole of `set_memory`: it does not call the adapter. -/
def setMemory (s : State V) (id : String) (value : V) : State V × Option (Report V) :=
  if !validateId id then s.refuse (.invalidId id) else
  let refused := match s.entries id with
    | some entry => entry.schema ≠ J.null && !J.accepts entry.schema value
    | none => false
  if refused then s.refuse .schemaInvalid else
  let s' := { s.override id (some value) with
    origin := Function.update s.origin id ((s.adapter id).map (·.value)) }
  (s', (s'.activeEntry J id).map fun entry => .set entry ((s.activeEntry J id).map (·.value)))

def migrate (s : State V) (source target : String) : State V × Option (Report V) :=
  if !validateId source then s.refuse (.invalidId source)
  else if !validateId target then s.refuse (.invalidId target)
  else (s.goto (some (.migrating source target)), none)

def request (s : State V) : Request V → Option (State V × Option (Report V))
  | .register r => some (s.register J r)
  | .ensure r => some (s.ensure J r)
  | .set id value => some (s.set J id value)
  | .setMemory id value => some (s.setMemory J id value)
  | .migrate source target => some (s.migrate source target)
  | .delete id => some (s.goto (some (.deleting id)), none)
  | .deliver =>
    match s.queue with
    | change :: queue => some ({ s with queue := queue }.goto (some (.delivering change)), none)
    | [] => none

/-! ### Calls of the adapter -/

/-- The operation fails with nothing written. -/
def fail (s : State V) : State V × Option (Report V) := (s.goto none, some (.failed .adapter))

def commitSome (s : State V) (id : String) : Option (Entry V) → State V
  | some entry => s.commit id (some entry)
  | none => s

def call (s : State V) : Point V → Outcome V → Option (State V × Option (Report V))
  | .registering entry purpose, .done =>
    some ((s.commit entry.id (some entry)).goto
      (some (.registered entry purpose (s.adapter entry.id).isNone)), none)
  | .registering _ _, .failed => some s.fail
  | .setting id value, .done =>
    match s.adapter id with
    | none => some s.fail
    | some entry =>
      some ((s.commit id (some { entry with value := value })).goto
        (some (.stored { entry with value := value } entry.value)), none)
  | .setting _ _, .failed => some s.fail
  | .deleting id, .done =>
    match s.adapter id with
    | none => some (s.goto (some (.deleted id none)), none)
    | some entry => some ((s.commit id none).goto (some (.deleted id (some entry))), none)
  | .deleting _, .failed => some s.fail
  | .migrating source target, .migrated entry =>
    if source ≠ target ∧ entry.id = target then
      some (((s.commit target (some entry)).commit source none).goto
        (some (.migrated source target .migrated (some entry))), none)
    else none
  | .migrating source target, .preserved entry =>
    if (source = target ∨ s.adapter source = none) ∧ entry.id = target then
      some (((s.settle source).commit target (some entry)).goto
        (some (.migrated source target .preserved (some entry))), none)
    else none
  | .migrating source target, .missing =>
    if s.adapter source = none ∧ s.adapter target = none then
      some (((s.settle source).settle target).goto (some (.migrated source target .missing none)), none)
    else none
  | .migrating source target, .broken first second =>
    if (∀ entry ∈ first, entry.id = source) ∧ (∀ entry ∈ second, entry.id = target) then
      some (((s.commitSome source first).commitSome target second).goto
        (some (.reconciling [source, target])), none)
    else none
  | .reconciling (id :: ids), .done =>
    if ids = [] then some ((s.cache id (s.adapter id)).goto none, some (.failed .adapter))
    else some ((s.cache id (s.adapter id)).goto (some (.reconciling ids)), none)
  | .delivering change, .done => some (s.goto (some (.delivered change (s.adapter change.id))), none)
  | _, _ => none

/-! ### The end of an operation -/

/-- Whether a queued change is still what the adapter holds: `apply_external_reconciled`. -/
def stillCurrent (change : ExternalChange V) (current : Option (Entry V)) : Bool :=
  match change, current with
  | .deleted _, none => true
  | .deleted _, some _ => false
  | _, some entry => change.value = some entry.value
  | _, none => false

/-- The end of `apply_external`. -/
def applied (s : State V) (change : ExternalChange V) (current : Option (Entry V)) :
    State V × Bool :=
  let id := change.id
  let s' := s.cache id current
  if !stillCurrent change current then (s', false)
  else if (s.entries id).map (·.value) ≠ current.map (·.value) then (s'.override id none, true)
  else (s', (s.runtimeValues id).isNone)

/-- A migration has been committed. -/
def migrated (s : State V) (source target : String) (action : MigrateAction) (entry : Option (Entry V)) :
    State V :=
  let moved :=
    if source = target then s
    else
      let s' := (s.cache source none).override source none
      if action = .migrated then s'.override target (s.runtimeValues source) else s'
  moved.cache target entry

def finish (s : State V) : Point V → Option (State V × Option (Report V))
  | .registered entry purpose created =>
    some ((s.cache entry.id (some entry)).goto none,
      some (match purpose with
        | .ensured action => .ensured action created entry
        | _ => .registered created entry))
  | .stored entry old =>
    some (((s.override entry.id none).cache entry.id (some entry)).goto none,
      some (.set entry (some ((s.runtimeValues entry.id).getD old))))
  | .deleted id removed =>
    let s' := s.override id none
    some ((if removed.isSome then s'.cache id none else s').goto none, some (.deleted removed))
  | .migrated source target action entry =>
    let s' := s.migrated source target action entry
    some (s'.goto none, some (.migrated action entry
      (entry.map fun e => { e with value := (s'.runtimeValues target).getD e.value })))
  | .delivered change current =>
    let after := s.applied change current
    some ({ after.1 with fanned := Function.update s.fanned change.id after.2 }.goto none,
      some (.applied change.id after.2))
  | _ => none

/-! ### The watcher -/

/-- Whether a file differs from the cached entry. The schema is not on disk. -/
def differs (existing fresh : Entry V) : Bool :=
  existing.value ≠ fresh.value || existing.name ≠ fresh.name ||
    existing.description ≠ fresh.description || existing.metadata ≠ fresh.metadata

/-- One file of the diff loop of `watch`. -/
def edit (s : State V) : Edit V → Option (State V)
  | .put fresh =>
    match s.adapter fresh.id with
    | none => some (s.capture fresh.id (some fresh) (.registered fresh))
    | some existing =>
      let entry := { fresh with schema := existing.schema }
      if differs existing fresh then some (s.capture fresh.id (some entry) (.updated entry)) else none
  | .remove id => (s.adapter id).map fun prior => s.capture id none (.deleted prior)

def step (s : State V) : Act V → Option (State V × Option (Report V))
  | .request q => if s.running.isNone then s.request J q else none
  | .call o => s.running.bind fun point => s.call point o
  | .finish => s.running.bind s.finish
  | .edit e => (s.edit e).map (·, none)

end State

/-- The store, its callers, its adapter and the watcher. -/
def machine {V : Type} [DecidableEq V] (J : Values V) : Machine (State V) (Act V) (Option (Report V)) where
  Step := fun s a r s' => s.step J a = some (s', r)

end Iii.Configuration
