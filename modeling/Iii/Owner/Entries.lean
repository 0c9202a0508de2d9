import Iii.Lib.Assoc
import Iii.Lib.Pool
import Iii.Owner.Flags

/-! The entries of the observed functions (`observer/owner.rs`).

Whoever uses the entry of a function finds it in the map, takes its `sync` and goes on unless it was dropped in between.
An entry that nothing uses is dropped: it leaves the map dead, and only then is its last revision put aside, where the
next entry of the function picks it up.

What happens while `sync`, or a shard of the map, is held is one action. Any number of calls are under way, each
between two of its actions. -/
namespace Iii.Entries
open Lib
open Iii.Owner (Conn FnKey Flags)
open Hooks (ErrorBody)

/-- The observers are known by their pointers. -/
abbrev ObserverRef := Nat

structure OwnerSync where
  revision : Nat
  announcedTo : Option Conn
deriving DecidableEq

/-- `described` is whether there is a descriptor. -/
structure FunctionEntry where
  described : Bool
  observers : List ObserverRef
  sync : OwnerSync
  announced : Bool
  dead : Bool
deriving DecidableEq

structure Owner where
  connection : Conn
  speaksObserve : Bool

theorem getElem?_modify_some {entries : List FunctionEntry} {i j : Nat} {f : FunctionEntry → FunctionEntry}
    {e' : FunctionEntry} : (entries.modify i f)[j]? = some e' ↔
      ∃ e, entries[j]? = some e ∧ (if i = j then f e else e) = e' := by
  rw [List.getElem?_modify]
  exact Option.map_eq_some_iff

namespace FunctionEntry

def startingAt (revision : Nat) : FunctionEntry := ⟨false, [], ⟨revision, none⟩, false, false⟩

def isUnused (e : FunctionEntry) : Bool := e.observers.isEmpty && !e.described && !e.announced

end FunctionEntry

/-- The messages that carry a revision. -/
inductive Message where
  | functionRegistered (key : FnKey) (revision : Nat) (localDispatch : Bool) (observers : List ObserverRef)
  | observerAdded (key : FnKey) (revision : Nat) (observer : ObserverRef)
  | observerRemoved (key : FnKey) (revision : Nat) (observer : ObserverRef)
deriving DecidableEq

namespace Message

def key : Message → FnKey
  | functionRegistered key .. | observerAdded key .. | observerRemoved key .. => key

def revision : Message → Nat
  | functionRegistered _ revision .. | observerAdded _ revision _ | observerRemoved _ revision _ => revision

end Message

/-- `entries` are all the entries that a function has had: a call may hold one that was dropped. `byFunction` says which
of them is in the map. -/
structure State where
  entries : FnKey → List FunctionEntry
  byFunction : FnKey → Option Nat
  revisions : List (FnKey × Nat)
  revisionOrder : List (FnKey × Nat)
  flags : ObserverRef → Flags
  announcements : Nat
  sent : List (Conn × Message)

def State.new (flags : ObserverRef → Flags) : State := ⟨fun _ => [], fun _ => none, [], [], flags, 0, []⟩

/-- What a call does with the live entry it holds. -/
inductive Job where
  | setDescriptor
  | attachToFunction (observer : ObserverRef)
  | functionRegistered (worker : Conn) (localDispatch : Bool)

inductive Task where
  /-- `with_live_entry`, `with_owner_sync`: to find the entry, and with the entry found. -/
  | find (key : FnKey) (job : Job)
  | hold (key : FnKey) (i : Nat) (job : Job)
  | dropEntryIfUnused (key : FnKey)
  /-- `keep_revision`: the map, then the order. -/
  | keepRevision (key : FnKey) (revision : Nat)
  | trim (key : FnKey) (revision : Nat)
  /-- `set_descriptor` without one. -/
  | clearDescriptor (key : FnKey)
  | onFunctionChange (key : FnKey) (registered : Bool)
  | endRegistration (key : FnKey) (i : Nat) (registered : Bool)
  | unannounce (key : FnKey) (i : Nat) (registered : Bool)
  | resetAll (key : FnKey) (i : Nat) (registered : Bool)
  | reset (key : FnKey) (observers : List ObserverRef) (registered : Bool)
  | detachFromFunction (observer : ObserverRef)
  | detach (observer : ObserverRef) (i : Nat)
  | withdrawFromOwner (observer : ObserverRef)
  | withdraw (observer : ObserverRef) (i : Nat)
  /-- `ObserverRegistry::update`: an ack, a failure, a disposal. -/
  | update (observer : ObserverRef) (change : Flags → Flags)

inductive Act where
  | go
  /-- Someone holds the `sync` that is only tried. -/
  | busy
  /-- What `try_owner_of` says: nothing while the shard is locked. -/
  | owner (tried : Option (Option Owner))
  /-- What a change of the function finds for one observer: whether it counts as acked, and why it may not stay. -/
  | check (acked : Bool) (error : Option ErrorBody)

def maxKeptRevisions : Nat := 65536

namespace State

def entry? (s : State) (key : FnKey) (i : Nat) : Option FunctionEntry := (s.entries key)[i]?

def modify (s : State) (key : FnKey) (i : Nat) (f : FunctionEntry → FunctionEntry) : State :=
  { s with entries := Function.update s.entries key ((s.entries key).modify i f) }

def setFlags (s : State) (observer : ObserverRef) (change : Flags → Flags) : State :=
  { s with flags := Function.update s.flags observer (change (s.flags observer)) }

def notify (s : State) (connection : Conn) (message : Message) : State :=
  { s with sent := s.sent ++ [(connection, message)] }

/-- The entry of the map, made if needed. -/
def entryFor (s : State) (key : FnKey) : State × Nat :=
  match s.byFunction key with
  | some i => (s, i)
  | none =>
    ({ s with
        entries := Function.update s.entries key
          (s.entries key ++ [.startingAt ((Assoc.get? s.revisions key).getD 0)])
        byFunction := Function.update s.byFunction key (some (s.entries key).length)
        revisions := Assoc.erase s.revisions key },
      (s.entries key).length)

/-- The revision to keep, if the entry was dropped and has one. -/
def dropEntryIfUnused (s : State) (key : FnKey) : State × List Task :=
  match s.byFunction key with
  | none => (s, [])
  | some i =>
    match s.entry? key i with
    | none => (s, [])
    | some e =>
      if e.isUnused then
        let s := s.modify key i fun e => { e with dead := true }
        ({ s with byFunction := Function.update s.byFunction key none },
          if e.sync.revision > 0 then [.keepRevision key e.sync.revision] else [])
      else (s, [])

/-- The loop of `keep_revision`. -/
def evict : List (FnKey × Nat) → List (FnKey × Nat) → List (FnKey × Nat) × List (FnKey × Nat)
  | revisions, [] => (revisions, [])
  | revisions, (oldest, kept) :: order =>
    if revisions.length > maxKeptRevisions then
      evict (if Assoc.get? revisions oldest = some kept then Assoc.erase revisions oldest else revisions) order
    else (revisions, (oldest, kept) :: order)

def trim (s : State) (key : FnKey) (revision : Nat) : State :=
  let (revisions, order) := evict s.revisions (s.revisionOrder ++ [(key, revision)])
  { s with
    revisions := revisions
    revisionOrder :=
      if order.length > 2 * maxKeptRevisions then order.filter fun m => Assoc.get? revisions m.1 = some m.2 else order }

def announce (s : State) (observer : ObserverRef) (owner : Conn) (revision : Nat) : State :=
  { s with announcements := s.announcements + 1 }.setFlags observer fun flags =>
    { flags with
      ownerAcked := false
      rejectedByOwner := false
      announced := some { owner, revision, generation := s.announcements + 1 } }

/-- `e` is the entry, its `sync` held and not dead. -/
def attachToFunction (s : State) (key : FnKey) (i : Nat) (e : FunctionEntry) (observer : ObserverRef)
    (owner : Option Owner) : State :=
  match e.sync.announcedTo with
  | none =>
    (s.modify key i fun e => { e with observers := e.observers ++ [observer] }).setFlags observer fun flags =>
      { flags with ownerAcked := !owner.any (·.speaksObserve) }
  | some announcedTo =>
    let revision := e.sync.revision + 1
    ((s.modify key i fun e =>
        { e with observers := e.observers ++ [observer], sync := { e.sync with revision } }).announce
      observer announcedTo revision).notify announcedTo (.observerAdded key revision observer)

def functionRegistered (s : State) (key : FnKey) (i : Nat) (e : FunctionEntry) (worker : Conn) (localDispatch : Bool)
    (owner : Option Owner) : State × List Task :=
  if owner.map (·.connection) ≠ some worker ∨ e.sync.announcedTo = some worker then (s, [.dropEntryIfUnused key])
  else
    let revision := e.sync.revision + 1
    let observers := e.observers.filter fun o => (s.flags o).failed.isNone && (s.flags o).disposed.isNone
    let s := s.modify key i fun e => { e with announced := true, sync := ⟨revision, some worker⟩ }
    ((observers.foldl (fun s o => s.announce o worker revision) s).notify worker
      (.functionRegistered key revision localDispatch observers), [])

def withdraw (s : State) (key : FnKey) (i : Nat) (e : FunctionEntry) (observer : ObserverRef) : State :=
  let flags := s.flags observer
  let s := s.setFlags observer fun flags => { flags with announced := none, rejectedByOwner := false }
  match flags.announced, e.sync.announcedTo with
  | some announced, some owner =>
    if flags.rejectedByOwner || announced.owner ≠ owner then s
    else
      let revision := e.sync.revision + 1
      (s.modify key i fun e => { e with sync := { e.sync with revision } }).notify owner
        (.observerRemoved key revision observer)
  | _, _ => s

/-- `f` of the observers that are to hear of the change. -/
def resetObserver (s : State) (observer : ObserverRef) (registered acked : Bool) (error : Option ErrorBody) : State :=
  match (if registered then error else none) with
  | some error =>
    s.setFlags observer fun flags => if flags.failed.isNone then { flags with failed := some error } else flags
  | none =>
    s.setFlags observer fun flags =>
      { flags with
        functionAvailable := registered
        ownerAcked := registered && acked
        announced := none
        rejectedByOwner := false }

/-- `fn` is the function of each observer. -/
def step (fn : ObserverRef → FnKey) (s : State) : Task → Act → Option (State × List Task)
  | .find key job, .go => some ((s.entryFor key).1, [.hold key (s.entryFor key).2 job])
  | .hold key i job, act =>
    match s.entry? key i, job, act with
    | some e, .setDescriptor, .go =>
      if e.dead then some (s, [.find key job]) else some (s.modify key i fun e => { e with described := true }, [])
    | some e, .attachToFunction observer, .owner tried =>
      match (if e.dead then none else tried) with
      | none => some (s, [.find key job])
      | some owner => some (s.attachToFunction key i e observer owner, [])
    | some e, .functionRegistered worker localDispatch, .owner tried =>
      match (if e.dead then none else tried) with
      | none => some (s, [.find key job])
      | some owner => some (s.functionRegistered key i e worker localDispatch owner)
    | _, _, _ => none
  | .dropEntryIfUnused _, .busy => some (s, [])
  | .dropEntryIfUnused key, .go => some (s.dropEntryIfUnused key)
  | .keepRevision key revision, .go =>
    some ({ s with revisions := Assoc.insert s.revisions key revision }, [.trim key revision])
  | .trim key revision, .go => some (s.trim key revision, [])
  | .clearDescriptor key, .go =>
    match s.byFunction key with
    | some i => some (s.modify key i fun e => { e with described := false }, [.dropEntryIfUnused key])
    | none => some (s, [.dropEntryIfUnused key])
  | .onFunctionChange key registered, .go =>
    match s.byFunction key with
    | some i => some (s, [.endRegistration key i registered])
    | none => some (s, [])
  | .endRegistration key i registered, .go =>
    some (if registered then s else s.modify key i fun e => { e with described := false },
      [.unannounce key i registered])
  | .unannounce key i registered, .go =>
    some (s.modify key i fun e => { e with announced := false, sync := { e.sync with announcedTo := none } },
      [.resetAll key i registered])
  | .resetAll key i registered, .go =>
    match s.entry? key i with
    | some e => some (s, [.reset key e.observers registered])
    | none => none
  | .reset key [] _, .go => some (s, [.dropEntryIfUnused key])
  | .reset key (observer :: observers) registered, .check acked error =>
    some (s.resetObserver observer registered acked error, [.reset key observers registered])
  | .detachFromFunction observer, .go =>
    match s.byFunction (fn observer) with
    | some i => some (s, [.detach observer i])
    | none => some (s, [.dropEntryIfUnused (fn observer)])
  | .detach observer i, .go =>
    some (s.modify (fn observer) i fun e => { e with observers := e.observers.filter (· ≠ observer) },
      [.dropEntryIfUnused (fn observer)])
  | .withdrawFromOwner observer, .go =>
    match s.byFunction (fn observer) with
    | some i => some (s, [.withdraw observer i])
    | none => some (s, [])
  | .withdraw observer i, .go =>
    match s.entry? (fn observer) i with
    | some e => some (s.withdraw (fn observer) i e observer, [])
    | none => none
  | .update observer change, .go => some (s.setFlags observer change, [])
  | _, _ => none

end State

/-- The calls, before their first action. -/
def Task.isCall : Task → Bool
  | .find .. | .dropEntryIfUnused _ | .clearDescriptor _ | .onFunctionChange .. | .detachFromFunction _ |
    .withdrawFromOwner _ | .update .. => true
  | _ => false

def pool (fn : ObserverRef → FnKey) : Pool State Task Act where
  Start := fun _ t => t.isCall
  Exec := fun s t a s' news => s.step fn t a = some (s', news)

end Iii.Entries
