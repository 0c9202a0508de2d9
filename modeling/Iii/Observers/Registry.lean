import Iii.Lib.Assoc
import Iii.Lib.Machine

/-! Which connection owns an observer, and what is remembered of the disposed ones
(`observer/registry.rs`, `observer/lifecycle.rs`): `observe`, disposals, `connection_closed`, the end
of the grace period and `Reattach`, each one step. -/
namespace Iii.Observers
open Lib

/-- Connections and reattach tokens are UUIDs. -/
abbrev Conn := Nat

abbrev Token := Nat

inductive Code where
  | maxFires | expired | unobserved | observerDisconnected | observerIdConflict | invalidArgs | refused
deriving DecidableEq

structure ErrorBody where
  code : Code
  message : String
deriving DecidableEq

def maxTombstones : Nat := 10000

def maxExpiredObservers : Nat := 10000

/-- `deadline` is the source's `until`. -/
structure Tombstone where
  connection : Conn
  reason : ErrorBody
  deadline : Nat
deriving DecidableEq

structure Expired where
  token : Token
  disposed : List (String × ErrorBody)
  deadline : Nat

/-- `wellFormed` is the check of an observer's id. -/
structure Config where
  observerGraceMs : Nat
  disposedRetentionMs : Nat
  reattachToken : Conn → Token
  wellFormed : String → Bool

structure Observer (S : Type) where
  spec : S
  connection : Conn
  connected : Bool
deriving DecidableEq

/-- `claimed` is `cleanup_claimed` of a connection's worker: its teardown has run. -/
structure State (S : Type) where
  byId : String → Option (Observer S)
  byConnection : Conn → List String
  departed : Conn → Option Token
  tombstones : List (String × Tombstone)
  tombstoneOrder : List (Nat × String)
  expired : Conn → Option Expired
  expiredQueue : List (Nat × Conn × Nat)
  expiredHeld : Nat
  claimed : Conn → Bool
  now : Nat

def State.start {S : Type} : State S where
  byId := fun _ => none
  byConnection := fun _ => []
  departed := fun _ => none
  tombstones := []
  tombstoneOrder := []
  expired := fun _ => none
  expiredQueue := []
  expiredHeld := 0
  claimed := fun _ => false
  now := 0

/-- The oldest tombstones go as they expire, or when there are too many. A newer one for the same
id stays. -/
def sweepTombstones (now : Nat) :
    List (String × Tombstone) → List (Nat × String) → List (String × Tombstone) × List (Nat × String)
  | tombstones, [] => (tombstones, [])
  | tombstones, (oldest, id) :: rest =>
    if now < oldest && tombstones.length ≤ maxTombstones then (tombstones, (oldest, id) :: rest)
    else
      sweepTombstones now
        (if (Assoc.get? tombstones id).any (·.deadline == oldest) then Assoc.erase tombstones id else tombstones) rest

/-- The same for the records of connections whose grace period ended. -/
def sweepExpired (now : Nat) : (Conn → Option Expired) → List (Nat × Conn × Nat) → Nat →
    (Conn → Option Expired) × List (Nat × Conn × Nat) × Nat
  | expired, [], held => (expired, [], held)
  | expired, (oldest, connection, count) :: rest, held =>
    if now < oldest && held ≤ maxExpiredObservers then (expired, (oldest, connection, count) :: rest, held)
    else
      sweepExpired now
        (if (expired connection).any (·.deadline == oldest) then Function.update expired connection none else expired)
        rest (held - count)

namespace State
variable {S : Type}

def rememberTombstone (s : State S) (id : String) (tombstone : Tombstone) : State S :=
  let (tombstones, order) := sweepTombstones s.now (Assoc.insert s.tombstones id tombstone)
    (s.tombstoneOrder ++ [(tombstone.deadline, id)])
  { s with tombstones := tombstones, tombstoneOrder := order }

def rememberExpired (C : Config) (s : State S) (connection : Conn) (token : Token)
    (disposed : List (String × ErrorBody)) : State S :=
  if disposed.isEmpty || C.disposedRetentionMs == 0 then s
  else
    let deadline := s.now + C.disposedRetentionMs
    let (expired, queue, held) := sweepExpired s.now
      (Function.update s.expired connection (some { token := token, disposed := disposed, deadline := deadline }))
      (s.expiredQueue ++ [(deadline, connection, disposed.length)]) (s.expiredHeld + disposed.length)
    { s with expired := expired, expiredQueue := queue, expiredHeld := held }

def forget (C : Config) (s : State S) (id : String) (observer : Observer S) (reason : ErrorBody) : State S :=
  let s := { s with byId := Function.update s.byId id none }
  let s := s.rememberTombstone id
    { connection := observer.connection, reason := reason, deadline := s.now + C.observerGraceMs }
  { s with
    byConnection :=
      Function.update s.byConnection observer.connection ((s.byConnection observer.connection).filter (· ≠ id)) }

def dispose (C : Config) (s : State S) (id : String) (reason : ErrorBody) : State S :=
  match s.byId id with
  | some observer => s.forget C id observer reason
  | none => s

def unobserve (C : Config) (s : State S) (connection : Conn) (id : String) : State S :=
  match s.byId id with
  | some observer =>
    if observer.connection = connection then s.dispose C id ⟨.unobserved, "disposed by its observing worker"⟩ else s
  | none => s

/-- The observers that `connection` owns. -/
def owned (s : State S) (connection : Conn) : List String :=
  (s.byConnection connection).filter fun id => (s.byId id).any (·.connection == connection)

def suspend (s : State S) (ids : List String) : State S :=
  { s with byId := fun id => (s.byId id).map fun o => if id ∈ ids then { o with connected := false } else o }

def connectionClosed (C : Config) (s : State S) (connection : Conn) : State S :=
  if (s.owned connection).isEmpty then s
  else
    { s.suspend (s.owned connection) with
      departed := Function.update s.departed connection (some (C.reattachToken connection)) }

def notReattached : ErrorBody :=
  ⟨.observerDisconnected, "the observing worker did not reattach within observers.observer_grace_ms"⟩

/-- The observers of `connection` that did not come back. -/
def disposeAway (C : Config) (s : State S) (connection : Conn) : List String → State S
  | [] => s
  | id :: rest =>
    if (s.byId id).any (fun o => o.connection == connection && !o.connected) then
      (s.dispose C id notReattached).disposeAway C connection rest
    else s.disposeAway C connection rest

/-- The disposed observers that are still remembered for `connection`. -/
def remembered (s : State S) (connection : Conn) : List (String × ErrorBody) :=
  (s.tombstones.filter fun m => m.2.connection = connection ∧ s.now < m.2.deadline).map fun m => (m.1, m.2.reason)

def graceElapsed (C : Config) (s : State S) (connection : Conn) : State S :=
  match s.departed connection with
  | none => s
  | some token =>
    let s := { s with departed := Function.update s.departed connection none }
    let s := s.disposeAway C connection (s.byConnection connection)
    s.rememberExpired C connection token (s.remembered connection)

def reattachLate (C : Config) (s : State S) (previous : Conn) (token : Token) (connection : Conn) : State S :=
  match s.expired previous with
  | none => s
  | some expired =>
    if s.now < expired.deadline && expired.token == token then
      expired.disposed.foldl
        (fun s m => s.rememberTombstone m.1
          { connection := connection, reason := m.2, deadline := s.now + C.observerGraceMs })
        { s with expired := Function.update s.expired previous none }
    else s

/-- The observers and the tombstones of `previous` are those of `connection` from now on. -/
def move (s : State S) (previous connection : Conn) : State S :=
  { s with
    departed := Function.update s.departed previous none
    byId := fun id => (s.byId id).map fun o =>
      if id ∈ s.owned previous then { o with connection := connection, connected := true } else o
    byConnection := Function.update (Function.update s.byConnection previous []) connection
      (s.byConnection connection ++ (s.owned previous).filter (· ∉ s.byConnection connection))
    tombstones := s.tombstones.map fun m =>
      (m.1, if m.2.connection = previous then { m.2 with connection := connection } else m.2) }

def reattach (C : Config) (s : State S) (previous : Conn) (token : Token) (connection : Conn) : State S :=
  if s.departed previous = some token then s.move previous connection
  else s.reattachLate C previous token connection

/-- `cleanup_worker`, once for a connection. -/
def close (C : Config) (s : State S) (connection : Conn) : State S :=
  if s.claimed connection then s
  else { s with claimed := Function.update s.claimed connection true }.connectionClosed C connection

/-- The message `Reattach`, read on `connection`. -/
def onReattach (C : Config) (s : State S) (previous : Conn) (token : Option Token) (connection : Conn) : State S :=
  if previous = connection then s
  else if !s.claimed previous && token != some (C.reattachToken previous) then s
  else
    match token with
    | none => s
    | some token => (s.close C previous).reattach C previous token connection

end State

inductive Answer where
  /-- The state of the observer that is there. -/
  | current
  | disposed (reason : ErrorBody)
  | rejected (error : ErrorBody)
  | created
  /-- Nothing is answered. -/
  | done
deriving DecidableEq

/-- `refusal` in `observe`: what the other checks of `create` say (arguments, filters, RBAC, limits). -/
inductive Act (S : Type) where
  | observe (connection : Conn) (id : String) (spec : S) (refusal : Option ErrorBody)
  | dispose (id : String) (reason : ErrorBody)
  | unobserve (connection : Conn) (id : String)
  | close (connection : Conn)
  | graceElapsed (connection : Conn)
  | reattach (previous : Conn) (token : Option Token) (connection : Conn)
  | tick (ms : Nat)

namespace State
variable {S : Type}

/-- `publish`: a new observer enters the indexes. -/
def publish (s : State S) (connection : Conn) (id : String) (spec : S) : State S :=
  { s with
    byId := Function.update s.byId id (some { spec := spec, connection := connection, connected := true })
    byConnection :=
      Function.update s.byConnection connection
        (s.byConnection connection ++ if id ∈ s.byConnection connection then [] else [id]) }

/-- One of a connection that is gone joins its suspended observers. -/
def create (C : Config) (s : State S) (connection : Conn) (id : String) (spec : S) : State S :=
  if s.claimed connection then (s.publish connection id spec).connectionClosed C connection
  else s.publish connection id spec

variable [DecidableEq S]

def observe (C : Config) (s : State S) (connection : Conn) (id : String) (spec : S) (refusal : Option ErrorBody) :
    State S × Answer :=
  if !C.wellFormed id then
    (s, .rejected ⟨.invalidArgs, "an observer id is a non-empty string of at most 128 bytes"⟩)
  else
    match s.byId id with
    | some existing =>
      if existing.connection = connection && existing.spec = spec then (s, .current)
      else if existing.connection = connection then
        (s, .rejected ⟨.observerIdConflict, s!"observer `{id}` already exists with a different spec"⟩)
      else (s, .rejected ⟨.observerIdConflict, s!"observer `{id}` is owned by another connection"⟩)
    | none =>
      match (Assoc.get? s.tombstones id).filter fun t => t.connection = connection ∧ s.now < t.deadline with
      | some tombstone => (s, .disposed tombstone.reason)
      | none =>
        match refusal with
        | some error => (s, .rejected error)
        | none => (s.create C connection id spec, .created)

def step (C : Config) (s : State S) : Act S → State S × Answer
  | .observe connection id spec refusal => s.observe C connection id spec refusal
  | .dispose id reason => (s.dispose C id reason, .done)
  | .unobserve connection id => (s.unobserve C connection id, .done)
  | .close connection => (s.close C connection, .done)
  | .graceElapsed connection => (s.graceElapsed C connection, .done)
  | .reattach previous token connection => (s.onReattach C previous token connection, .done)
  | .tick ms => ({ s with now := s.now + ms }, .done)

end State

def machine {S : Type} [DecidableEq S] (C : Config) : Machine (State S) (Act S) Answer where
  Step := fun s a r s' => s.step C a = (s', r)

end Iii.Observers
