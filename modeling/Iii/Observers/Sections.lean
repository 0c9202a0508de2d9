import Iii.Observers.Registry

/-! One connection that closes, in the sections between the locks: `connection_closed`, the timer's
`grace_elapsed`, any number of `Reattach` attempts and any disposals, in any order.

An observer is an object that outlives its entries in the indexes. The connection that closes is
`home`; observers are neither created nor published here. How long a tombstone lasts is left to
`Registry`. -/
namespace Iii.Observers.Sections
open Lib

structure Obs where
  connection : Conn
  connected : Bool
  disposed : Bool
  fires : Nat
  /-- The drop counter `INACTIVE`, and the events that are queued. -/
  inactive : Nat
  queued : Nat
deriving DecidableEq

/-- `connection_closed(home)`. -/
inductive Closer where
  | idle
  | suspend (ids : List String)
  /-- The timer is spawned; the departed record is inserted next. -/
  | depart
  | done
deriving DecidableEq

/-- `grace_elapsed(home)`. -/
inductive Timer where
  | off
  | sleeping
  | scan
  | dispose (ids : List String)
  | remember
  | over
deriving DecidableEq

/-- The `reattach` that claimed the departed record. -/
inductive Claim where
  | free
  | collect (new : Conn)
  | next (new : Conn) (ids : List String)
  | parent (new : Conn) (id : String) (ids : List String)
  | setObserving (new : Conn) (id : String) (ids : List String)
  | list (new : Conn) (id : String) (ids : List String)
  | check (new : Conn) (id : String) (ids : List String)
  | unlist (new : Conn) (id : String) (ids : List String)
  | connect (new : Conn) (id : String) (ids : List String)
  | rekey (new : Conn)
  | done (new : Conn)
deriving DecidableEq

/-- The rest of the `update` that disposed an observer; `drop` says whether its queue is dropped. -/
inductive Disposal where
  | none
  | drain (drop : Bool)
  | forget
  | bury
  | entomb (connection : Conn)
  | unindex (connection : Conn)
  | done
deriving DecidableEq

/-- `heirs` are the connections whose `Reattach` found a record. -/
structure State where
  home : Conn
  token : Token
  retains : Bool
  arcs : String → Obs
  byId : String → Bool
  byConnection : Conn → List String
  departed : Option Token
  tombstones : List (String × Conn)
  expired : Option (Token × List String)
  closer : Closer
  timer : Timer
  claim : Claim
  disposal : String → Disposal
  heirs : List Conn

inductive Act where
  | close
  | closer
  | timer
  /-- The first section of a `Reattach`, and the one of `reattach_late` when the first found no record. -/
  | attempt (new : Conn) (token : Token)
  | late (new : Conn) (token : Token)
  | claim
  | dispose (id : String) (drop : Bool)
  | disposal (id : String)
deriving DecidableEq

namespace State

def modify (s : State) (id : String) (f : Obs → Obs) : State :=
  { s with arcs := Function.update s.arcs id (f (s.arcs id)) }

/-- `by_connection`: an id is put in a connection's set, or taken out. -/
def enlist (s : State) (connection : Conn) (id : String) : State :=
  { s with
    byConnection :=
      Function.update s.byConnection connection
        (s.byConnection connection ++ if id ∈ s.byConnection connection then [] else [id]) }

def delist (s : State) (connection : Conn) (id : String) : State :=
  { s with
    byConnection := Function.update s.byConnection connection ((s.byConnection connection).filter (· ≠ id)) }

/-- The observers that `home`'s set names, and that it still owns. -/
def snapshot (s : State) : List String :=
  (s.byConnection s.home).filter fun id => s.byId id && (s.arcs id).connection == s.home

/-- `update` under the status lock, when it sets `disposed`: only the first time goes on. -/
def dispose (s : State) (id : String) (drop : Bool) : State :=
  if (s.arcs id).disposed then s
  else
    { s.modify id fun o => { o with disposed := true } with
      disposal := Function.update s.disposal id (.drain drop) }

def closerStep (s : State) : Option State :=
  match s.closer with
  | .suspend (id :: ids) =>
    some { s.modify id fun o => { o with connected := false } with closer := .suspend ids }
  | .suspend [] => some { s with closer := .depart, timer := .sleeping }
  | .depart => some { s with closer := .done, departed := some s.token }
  | _ => none

def timerStep (s : State) : Option State :=
  match s.timer with
  | .sleeping =>
    match s.departed with
    | some _ => some { s with departed := none, timer := .scan }
    | none => some { s with timer := .over }
  | .scan => some { s with timer := .dispose ((s.byConnection s.home).filter (s.byId ·)) }
  | .dispose (id :: ids) =>
    if (s.arcs id).connection = s.home ∧ (s.arcs id).connected = false then
      some { s.dispose id true with timer := .dispose ids }
    else some { s with timer := .dispose ids }
  | .dispose [] => some { s with timer := .remember }
  | .remember =>
    let disposed := (s.tombstones.filter (·.2 = s.home)).map (·.1)
    some { s with timer := .over
                  expired := if s.retains && !disposed.isEmpty then some (s.token, disposed) else s.expired }
  | _ => none

def attempt (s : State) (new : Conn) (token : Token) : State :=
  if s.departed = some token then { s with departed := none, claim := .collect new, heirs := new :: s.heirs } else s

def late (s : State) (new : Conn) (token : Token) : State :=
  match s.expired with
  | some (kept, ids) =>
    if kept = token then
      { s with expired := none, heirs := new :: s.heirs
               tombstones := ids.foldl (fun tombstones id => Assoc.insert tombstones id new) s.tombstones }
    else s
  | none => s

def claimStep (s : State) : Option State :=
  match s.claim with
  | .collect new =>
    some { s with claim := .next new (s.byConnection s.home)
                  byConnection := Function.update s.byConnection s.home [] }
  | .next new (id :: ids) => some { s with claim := if s.byId id then .parent new id ids else .next new ids }
  | .next new [] => some { s with claim := .rekey new }
  | .parent new id ids =>
    some { s with claim := if (s.arcs id).connection = s.home then .setObserving new id ids else .next new ids }
  | .setObserving new id ids => some { s.modify id fun o => { o with connection := new } with claim := .list new id ids }
  | .list new id ids => some { s.enlist new id with claim := .check new id ids }
  | .check new id ids => some { s with claim := if s.byId id then .connect new id ids else .unlist new id ids }
  | .unlist new id ids => some { s.delist new id with claim := .next new ids }
  | .connect new id ids => some { s.modify id fun o => { o with connected := true } with claim := .next new ids }
  | .rekey new =>
    some { s with claim := .done new
                  tombstones := s.tombstones.map fun m => (m.1, if m.2 = s.home then new else m.2) }
  | _ => none

def disposalStep (s : State) (id : String) : Option State :=
  match s.disposal id with
  | .drain drop =>
    some
      { s.modify id fun o => if drop then { o with inactive := o.inactive + o.queued, queued := 0 } else o with
        disposal := Function.update s.disposal id .forget }
  | .forget =>
    some { s with byId := Function.update s.byId id false, disposal := Function.update s.disposal id .bury }
  | .bury => some { s with disposal := Function.update s.disposal id (.entomb (s.arcs id).connection) }
  | .entomb connection =>
    some { s with tombstones := Assoc.insert s.tombstones id connection
                  disposal := Function.update s.disposal id (.unindex connection) }
  | .unindex connection =>
    some { s.delist connection id with disposal := Function.update s.disposal id .done }
  | _ => none

def step (s : State) : Act → Option State
  | .close =>
    if s.closer = .idle then
      some { s with closer := if s.snapshot.isEmpty then .done else .suspend s.snapshot }
    else none
  | .closer => s.closerStep
  | .timer => s.timerStep
  | .attempt new token => if new ≠ s.home then some (s.attempt new token) else none
  | .late new token => if new ≠ s.home then some (s.late new token) else none
  | .claim => s.claimStep
  | .dispose id drop => if s.byId id then some (s.dispose id drop) else none
  | .disposal id => s.disposalStep id

/-- Nothing is running; the timer may still sleep. -/
def quiet (s : State) : Prop :=
  (s.closer = .idle ∨ s.closer = .done) ∧ (s.timer = .off ∨ s.timer = .sleeping ∨ s.timer = .over) ∧
    (s.claim = .free ∨ ∃ new, s.claim = .done new) ∧ ∀ id, s.disposal id = .none ∨ s.disposal id = .done

end State

def machine : Machine State Act Unit where
  Step := fun s a _ s' => s.step a = some s'

end Iii.Observers.Sections
