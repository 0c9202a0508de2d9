import Iii.Lib.Multimap
import Iii.Owner.Entries

/-! The observer registry (`observer/registry.rs`, `observer/lifecycle.rs`, `observer/owner.rs`), one operation after
the other.

An observer is behind a pointer, and six indexes say where it is: by its id, by its connection, by its target, in the
entry of its function, in the routed hook's view of the function while it is active, and in the count of its state.
Most of what happens to it goes through `update`, which follows up what a change of its state means for them.

What the other registries of the engine say (which functions are registered, who hosts them) is an argument of each
operation. So is what `create` finds when it checks a request that is new, and what the tombstones say of its id. -/
namespace Iii.Registry
open Lib
open Iii.Owner (Conn FnKey Flags ObserverState Announcement)
open Hooks (ErrorBody)

/-- `Arc<Observer>`. -/
abbrev Ref := Nat

abbrev Token := Nat

structure ObserversConfig where
  maxPerConnection : Nat
  maxPerFunction : Nat
  defaultMaxInFlight : Nat
  maxQueuePerObserver : Nat

inductive Delivery where
  | auto | owner
  | unknown (delivery : String)
deriving DecidableEq

structure Policy where
  maxFires : Option Nat
  expiresInMs : Option Nat
  maxInFlight : Nat
  maxQueue : Nat

structure Observer (S : Type) where
  id : String
  function : FnKey
  target : FnKey
  spec : S
  policy : Policy
  warnings : List String
  connection : Conn
  flags : Flags
  state : ObserverState
  reason : Option ErrorBody
  fires : Nat

/-- `descriptor` is the delivery of the descriptor, with the default filled in. -/
structure FunctionEntry where
  descriptor : Option Delivery
  observers : List Ref
  revision : Nat
  announcedTo : Option Conn
  announced : Bool

namespace FunctionEntry

def startingAt (revision : Nat) : FunctionEntry := ⟨none, [], revision, none, false⟩

def isAuto (e : FunctionEntry) : Bool := e.descriptor.all (· = .auto)

def isUnused (e : FunctionEntry) : Bool := e.observers.isEmpty && e.descriptor.isNone && !e.announced

end FunctionEntry

inductive Message where
  | observeResult (id : String) (state : ObserverState) (error : Option ErrorBody) (warnings : List String)
  | observerStateChanged (id : String) (state : ObserverState) (reason : Option ErrorBody) (fires : Nat)
  | functionRegistered (key : FnKey) (revision : Nat) (localDispatch : Bool) (observers : List Ref)
  | observerAdded (key : FnKey) (revision : Nat) (observer : Ref)
  | observerRemoved (key : FnKey) (revision : Nat) (id : String)

/-- `revisions` are those of the functions whose entry was dropped. -/
structure State (S : Type) where
  config : ObserversConfig
  heap : Ref → Option (Observer S)
  next : Ref
  byId : List (String × Ref)
  byConnection : Multimap Conn String
  byTarget : Multimap FnKey String
  byFunction : FnKey → Option FunctionEntry
  observed : FnKey → Option (List Ref)
  stateCounts : ObserverState → Int
  departed : Conn → Option Token
  revisions : FnKey → Nat
  announcements : Nat
  sent : List (Conn × Message)

def State.new {S : Type} (config : ObserversConfig) : State S where
  config := config
  heap := fun _ => none
  next := 0
  byId := []
  byConnection := fun _ => none
  byTarget := fun _ => none
  byFunction := fun _ => none
  observed := fun _ => none
  stateCounts := fun _ => 0
  departed := fun _ => none
  revisions := fun _ => 0
  announcements := 0
  sent := []

/-- What the engine's other registries say: the functions that are registered, and who hosts them. -/
structure Deps where
  isRegistered : FnKey → Bool
  ownerOf : FnKey → Option Entries.Owner

def Deps.ackedByDefault (D : Deps) (key : FnKey) : Bool := !(D.ownerOf key).any (·.speaksObserve)

namespace StateCounts

/-- A disposed observer is not counted. -/
def enter (counts : ObserverState → Int) (state : ObserverState) : ObserverState → Int :=
  if state = .disposed then counts else Function.update counts state (counts state + 1)

def leave (counts : ObserverState → Int) (state : ObserverState) : ObserverState → Int :=
  if state = .disposed then counts else Function.update counts state (counts state - 1)

def get (counts : ObserverState → Int) (state : ObserverState) : Int := if state = .disposed then 0 else counts state

end StateCounts

namespace Observer
variable {S : Type}

def derive (o : Observer S) (flags : Flags) : ObserverState × Option ErrorBody := flags.derive o.function o.target

/-- The flags after a change to a state. -/
def entering (state : ObserverState) (flags : Flags) : Flags :=
  if state = .active then { flags with activatedOnce := true } else flags

def new (o : Observer S) : Observer S :=
  { o with
    flags := entering (o.derive o.flags).1 o.flags
    state := (o.derive o.flags).1
    reason := (o.derive o.flags).2 }

end Observer

namespace State
variable {S : Type}

def get (s : State S) (id : String) : Option Ref := Assoc.get? s.byId id

def notify (s : State S) (connection : Conn) (message : Message) : State S :=
  { s with sent := s.sent ++ [(connection, message)] }

def set (s : State S) (r : Ref) (o : Observer S) : State S := { s with heap := Function.update s.heap r (some o) }

def setEntry (s : State S) (key : FnKey) (entry : Option FunctionEntry) : State S :=
  { s with byFunction := Function.update s.byFunction key entry }

def isActive (s : State S) (r : Ref) : Bool := (s.heap r).any (·.state = .active)

/-! ### The entry of a function -/

def entryFor (s : State S) (key : FnKey) : State S × FunctionEntry :=
  match s.byFunction key with
  | some e => (s, e)
  | none =>
    ({ s.setEntry key (some (.startingAt (s.revisions key))) with revisions := Function.update s.revisions key 0 },
      .startingAt (s.revisions key))

def dropEntryIfUnused (s : State S) (key : FnKey) : State S :=
  match s.byFunction key with
  | none => s
  | some e =>
    if e.isUnused then
      { s.setEntry key none with
        revisions := if e.revision > 0 then Function.update s.revisions key e.revision else s.revisions }
    else s

def refreshActive (s : State S) (key : FnKey) : State S :=
  let active :=
    match s.byFunction key with
    | some e => if e.isAuto then e.observers.filter s.isActive else []
    | none => []
  { s with observed := Function.update s.observed key (if active.isEmpty then none else some active) }

/-! ### A change of an observer -/

def withdrawFromOwner (s : State S) (r : Ref) (o : Observer S) : State S :=
  match s.byFunction o.function with
  | none => s
  | some e =>
    let s := s.set r { o with flags := { o.flags with announced := none, rejectedByOwner := false } }
    match o.flags.announced, e.announcedTo with
    | some announced, some owner =>
      if o.flags.rejectedByOwner || announced.owner ≠ owner then s
      else
        (s.setEntry o.function (some { e with revision := e.revision + 1 })).notify owner
          (.observerRemoved o.function (e.revision + 1) o.id)
    | _, _ => s

def detachFromFunction (s : State S) (r : Ref) (key : FnKey) : State S :=
  let s :=
    match s.byFunction key with
    | some e => s.setEntry key (some { e with observers := e.observers.filter (· ≠ r) })
    | none => s
  (s.dropEntryIfUnused key).refreshActive key

def forget (s : State S) (r : Ref) (o : Observer S) : State S :=
  { s with
    byId := if s.get o.id = some r then Assoc.erase s.byId o.id else s.byId
    byConnection := (s.byConnection.take o.connection o.id).dropEmpty o.connection
    byTarget := (s.byTarget.take o.target o.id).dropEmpty o.target }.detachFromFunction r o.function

/-- The observer moves to another state: what is counted, and what its connection hears. -/
def transition (s : State S) (r : Ref) (o : Observer S) (flags : Flags) (state : ObserverState)
    (reason : Option ErrorBody) : State S :=
  { s.set r { o with flags := Observer.entering state flags, state := state, reason := reason } with
    stateCounts := StateCounts.enter (StateCounts.leave s.stateCounts o.state) state }.notify o.connection
      (.observerStateChanged o.id state reason o.fires)

/-- What follows for `o`, which has its new state. -/
def followUp (s : State S) (r : Ref) (o : Observer S) (wasActive : Bool) : State S :=
  let s := if o.state = .disposed ∨ o.state = .error then s.withdrawFromOwner r o else s
  let s := if wasActive ≠ decide (o.state = .active) then s.refreshActive o.function else s
  if o.state = .disposed then s.forget r o else s

def update (s : State S) (r : Ref) (change : Flags → Flags) : State S :=
  match s.heap r with
  | none => s
  | some o =>
    let flags := change o.flags
    let (state, reason) := o.derive flags
    if state = o.state ∧ reason.map (·.code) = o.reason.map (·.code) then s.set r { o with flags := flags }
    else
      (s.transition r o flags state reason).followUp r
        { o with flags := Observer.entering state flags, state := state, reason := reason } (o.state = .active)

def dispose (s : State S) (r : Ref) (reason : ErrorBody) : State S :=
  s.update r fun flags => if flags.disposed.isNone then { flags with disposed := some reason } else flags

def fail (s : State S) (r : Ref) (error : ErrorBody) : State S :=
  s.update r fun flags => if flags.failed.isNone then { flags with failed := some error } else flags

def announce (s : State S) (r : Ref) (owner : Conn) (revision : Nat) : State S :=
  { s with announcements := s.announcements + 1 }.update r fun flags =>
    { flags with
      ownerAcked := false
      rejectedByOwner := false
      announced := some { owner, revision, generation := s.announcements + 1 } }

/-! ### `observe` -/

def attachToFunction (D : Deps) (s : State S) (r : Ref) (key : FnKey) : State S :=
  let (s, e) := s.entryFor key
  let e := { e with observers := e.observers ++ [r] }
  match e.announcedTo with
  | none =>
    (s.setEntry key (some e)).update r fun flags => { flags with ownerAcked := D.ackedByDefault key }
  | some announcedTo =>
    let revision := e.revision + 1
    ((s.setEntry key (some { e with revision := revision })).announce r announcedTo revision).notify announcedTo
      (.observerAdded key revision r)

/-- What `publish` does before `attach_to_function`. -/
def enlist (s : State S) (o : Observer S) : State S :=
  let s :=
    { s.set s.next o with
      next := s.next + 1
      byId := Assoc.insert s.byId o.id s.next
      stateCounts := StateCounts.enter s.stateCounts o.state }
  let s := s.notify o.connection (.observeResult o.id o.state none o.warnings)
  { s with
    byConnection := s.byConnection.add o.connection o.id
    byTarget := s.byTarget.add o.target o.id }

/-- `o` is new, and its id is free. -/
def publish (D : Deps) (s : State S) (o : Observer S) : State S :=
  let s := (s.enlist o).attachToFunction D s.next o.function
  if o.state = .active then s.refreshActive o.function else s

/-- The observers that `connection` owns. -/
def owned (s : State S) (connection : Conn) : List Ref :=
  ((s.byConnection.values connection).filterMap s.get).filter fun r => (s.heap r).any (·.connection = connection)

/-- `runtime` is whether there is one to run the timer of the grace period. -/
def connectionClosed (s : State S) (connection : Conn) (token : Token) (runtime : Bool) : State S :=
  let observers := s.owned connection
  if observers.isEmpty then s
  else
    let s := observers.foldl (fun s r => s.update r fun flags => { flags with observingConnected := false }) s
    if runtime then { s with departed := Function.update s.departed connection (some token) }
    else
      observers.foldl (fun s r => s.dispose r ⟨"OBSERVER_DISCONNECTED", "the observing worker disconnected"⟩) s

end State

end Iii.Registry
