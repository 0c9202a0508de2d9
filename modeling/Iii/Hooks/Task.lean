import Iii.Lib.Machine

/-! The hook task of an observable function (`sdk/packages/rust/iii/src/observable.rs`).

The messages of the engine about one function wait in `ops`, and the task takes them one at a
time. What an operation still has to do is its `todo`; a callback of the owner that has started
is `running`, and anything may happen before it ends. What stands between two callbacks is cut
into steps as well, so that a release may come there too: it is made by any thread.

`Observer::reject` and the end of `add_member` hold the lock of the observer's rejection, and the
compiled set is rebuilt under `publishing`: each is one step. -/
namespace Iii.Hooks
open Lib

structure ErrorBody where
  code : String
  message : String
deriving DecidableEq

/-- An observer as the engine shows it to the owner of its function. -/
structure View (V : Type) where
  id : String
  spec : V
deriving DecidableEq

/-- What does not change of an observer the SDK made from a view; `ref` is its `Arc`. -/
structure Observer (V : Type) where
  ref : Nat
  view : View V
  ns : String
deriving DecidableEq

inductive HookOp (V : Type) where
  | registered (revocation epoch : Nat) (ns : String) (revision : Nat) (localDispatch : Bool)
      (observers : List (View V))
  | added (ns : String) (revision : Nat) (observer : View V)
  | removed (revision : Nat) (id : String)
  | republish
  | reset (last : Bool)
deriving DecidableEq

/-- `observerack`: positive without an error. -/
structure Ack where
  id : String
  revision : Nat
  error : Option ErrorBody
deriving DecidableEq

/-- What is left of an operation. -/
inductive Item (V : Type) where
  | drop (id : String)
  /-- The observer is removed if it is held, then added. -/
  | refresh (view : View V) (ns : String) (revision : Nat)
  | add (view : View V) (ns : String) (revision : Nat)
  | settle (revision : Nat)
  | rewind (last : Bool)
deriving DecidableEq

inductive Callback (V : Type) where
  /-- `on_observer_added`, and the revocation when it started. -/
  | adding (o : Observer V) (revision revocation : Nat)
  | removing (o : Observer V)
deriving DecidableEq

inductive Outcome where
  | ok
  | rejected (error : ErrorBody)
  | panicked (message : String)
  | timedOut
deriving DecidableEq

/-- The rejection that an `on_observer_added` ends with. -/
def Outcome.rejection (hookTimeout id : String) : Outcome → Option ErrorBody
  | ok => none
  | rejected error => some error
  | panicked message =>
    some { code := "OBSERVE_REJECTED", message := "on_observer_added panicked: " ++ message }
  | timedOut =>
    some { code := "OWNER_TIMEOUT"
           message := "on_observer_added for observer " ++ id ++ " did not finish within " ++ hookTimeout }

/-- The callbacks so far: each start, and how an `on_observer_added` returned. -/
inductive Call (V : Type) where
  | adding (o : Observer V)
  | added (o : Observer V) (ok : Bool)
  | removed (o : Observer V)
deriving DecidableEq

/-- A function as its owner registered it. `filters` is the error of `Filter::from_normalized`. -/
structure Function (V : Type) where
  hooks : Bool
  wantsLocal : Bool
  /-- As a message shows it. -/
  hookTimeout : String
  filters : View V → Option ErrorBody

/-- The function's entry, its hook task, and what changes of its observers. -/
structure State (V : Type) where
  ops : List (HookOp V)
  members : List (Observer V)
  revision : Nat
  /-- The operation that `todo` belongs to, or the last one. -/
  doing : Option (HookOp V)
  todo : List (Item V)
  running : Option (Callback V)
  /-- Every observer made, the last first. -/
  made : List (Observer V)
  active : Nat → Bool
  rejection : Nat → Option ErrorBody
  announced : Nat → Nat
  /-- The client still has the entry under the function's id. -/
  listed : Bool
  ns : Option String
  localDispatch : Bool
  confirmedEpoch : Nat
  revocation : Nat
  revoked : Bool
  compiled : List (Observer V)
  calls : List (Call V)

def State.start {V : Type} : State V where
  ops := []
  members := []
  revision := 0
  doing := none
  todo := []
  running := none
  made := []
  active := fun _ => false
  rejection := fun _ => none
  announced := fun _ => 0
  listed := true
  ns := none
  localDispatch := false
  confirmedEpoch := 0
  revocation := 0
  revoked := false
  compiled := []
  calls := []

inductive Act (V : Type) where
  | functionRegistered (epoch : Nat) (ns : String) (revision : Nat) (localDispatch : Bool)
      (observers : List (View V))
  | observerAdded (ns : String) (revision : Nat) (observer : View V)
  | observerRemoved (revision : Nat) (id : String)
  /-- `FunctionEntry::release`: a `FUNCTION_NAMESPACE_CONFLICT`, or the function is unregistered. -/
  | release
  /-- What follows a release. -/
  | reset (last : Bool)
  /-- The client drops the entry: the function is unregistered. -/
  | unlist
  | reject (o : Observer V) (error : ErrorBody)
  /-- The task goes on. -/
  | next
  /-- The callback ends. -/
  | finish (outcome : Outcome)

/-- What a step shows: the operation it took and the acks it sent. -/
structure Sent (V : Type) where
  took : Option (HookOp V) := none
  acks : List Ack := []

namespace State
variable {V : Type}

def held (s : State V) (id : String) : Option (Observer V) := s.members.find? fun o => o.view.id == id

def enqueue (s : State V) (op : HookOp V) : State V := { s with ops := s.ops ++ [op] }

def call (s : State V) (c : Call V) : State V := { s with calls := c :: s.calls }

/-- `FunctionEntry::publish`. -/
def publish (s : State V) : State V := { s with compiled := s.members.filter fun o => s.active o.ref }

/-- `FunctionEntry::drop_inactive`. -/
def dropInactive (s : State V) : State V := { s with compiled := s.compiled.filter fun o => s.active o.ref }

def deactivate (s : State V) (o : Observer V) : State V :=
  { s with active := Function.update s.active o.ref false }

def revoke (s : State V) : State V := { s with localDispatch := false, confirmedEpoch := 0 }

def release (s : State V) : State V :=
  { s with revocation := s.revocation + 1, revoked := true }.revoke

/-- `Observer::ack_again`, when it is wanted. -/
def ackAgain (s : State V) (o : Observer V) (revision : Nat) : State V × Ack :=
  ({ s with announced := Function.update s.announced o.ref revision },
    { id := o.view.id, revision, error := s.rejection o.ref })

def startRemoved (F : Function V) (s : State V) (o : Observer V) : State V :=
  if F.hooks then { s.call (.removed o) with running := some (.removing o) } else s

/-- `remove_member`, up to its callback. -/
def removeMember (F : Function V) (s : State V) (id : String) : State V :=
  match s.held id with
  | none => s
  | some o =>
    (({ s with members := s.members.filter fun m => m.view.id ≠ id }.deactivate o).publish).startRemoved F o

/-- The end of `add_member`: ack, then publish. -/
def accept (s : State V) (o : Observer V) (revision : Nat) : State V × List Ack :=
  match s.rejection o.ref with
  | some error => (s, [{ id := o.view.id, revision, error := some error }])
  | none =>
    let members := (s.members.filter fun m => m.view.id ≠ o.view.id) ++ [o]
    ({ s with active := Function.update s.active o.ref true, members }.publish,
      [{ id := o.view.id, revision, error := none }])

/-- `add_member`, up to its callback. -/
def addMember (F : Function V) (s : State V) (view : View V) (ns : String) (revision : Nat) :
    State V × List Ack :=
  match F.filters view with
  | some error => (s, [{ id := view.id, revision, error := some error }])
  | none =>
    let o : Observer V := { ref := s.made.length, view, ns }
    let s := { s with made := o :: s.made, announced := Function.update s.announced o.ref revision }
    if F.hooks then
      ({ s.call (.adding o) with running := some (.adding o revision s.revocation) }, [])
    else s.accept o revision

/-- The observers of a `functionregistered` that are held are acked again; the others are left. -/
def ackHeld [DecidableEq V] (s : State V) (revision : Nat) :
    List (View V) → State V × List Ack × List (View V)
  | [] => (s, [], [])
  | view :: views =>
    match s.held view.id with
    | some o =>
      if (s.rejection o.ref).isSome || o.view == view then
        let (s, ack) := s.ackAgain o revision
        let (s, acks, fresh) := s.ackHeld revision views
        (s, ack :: acks, fresh)
      else
        let (s, acks, fresh) := s.ackHeld revision views
        (s, acks, view :: fresh)
    | none =>
      let (s, acks, fresh) := s.ackHeld revision views
      (s, acks, view :: fresh)

/-- `run_hooks` takes an operation. -/
def take [DecidableEq V] (F : Function V) (s : State V) : HookOp V → State V × List Ack
  | .registered revocation epoch ns revision localDispatch observers =>
    if s.revocation ≠ revocation then ({ s with doing := none }, [])
    else
      let s := { s with revoked := false, ns := some ns, localDispatch := localDispatch && F.wantsLocal
                        doing := some (.registered revocation epoch ns revision localDispatch observers) }
      let (s, acks, fresh) := s.ackHeld revision observers
      let gone := (s.members.map (·.view.id)).filter fun id => id ∉ observers.map (·.id)
      ({ s with confirmedEpoch := epoch
                todo := gone.map .drop ++ fresh.map (.refresh · ns revision) ++ [.settle revision] }, acks)
  | .added ns revision view =>
    if revision ≤ s.revision then ({ s with doing := none }, [])
    else
      let s := { s with doing := some (.added ns revision view) }
      match s.held view.id with
      | some o =>
        if (s.rejection o.ref).isNone && o.view == view then
          let (s, ack) := s.ackAgain o revision
          ({ s with todo := [.settle revision] }, [ack])
        else ({ s with todo := [.refresh view ns revision, .settle revision] }, [])
      | none => ({ s with todo := [.refresh view ns revision, .settle revision] }, [])
  | .removed revision id =>
    if revision ≤ s.revision then ({ s with doing := none }, [])
    else ({ s with doing := some (.removed revision id), todo := [.drop id, .settle revision] }, [])
  | .republish => ({ s.publish with doing := some .republish }, [])
  | .reset last =>
    ({ s.revoke with doing := some (.reset last)
                     todo := s.members.map (fun o => .drop o.view.id) ++ [.rewind last] }, [])

def work (F : Function V) (s : State V) : Item V → State V × List Ack
  | .drop id => (s.removeMember F id, [])
  | .refresh view ns revision =>
    ({ s with todo := .add view ns revision :: s.todo }.removeMember F view.id, [])
  | .add view ns revision => s.addMember F view ns revision
  | .settle revision => ({ s with revision := revision }, [])
  -- The task ends, and with it the channel; the next one starts from nothing.
  | .rewind last => ({ s with revision := 0, ops := if last then [] else s.ops }, [])

def next [DecidableEq V] (F : Function V) (s : State V) : Option (State V × Sent V) :=
  match s.running, s.todo, s.ops with
  | some _, _, _ => none
  | none, item :: todo, _ =>
    let (s, acks) := { s with todo := todo }.work F item
    some (s, { acks })
  | none, [], op :: ops =>
    let (s, acks) := { s with ops := ops }.take F op
    some (s, { took := some op, acks })
  | none, [], [] => none


def finish (F : Function V) (s : State V) (outcome : Outcome) : Option (State V × Sent V) :=
  match s.running with
  | none => none
  | some (.removing _) => some ({ s with running := none }, {})
  | some (.adding o revision revocation) =>
    let s := { s with running := none }
    match outcome.rejection F.hookTimeout o.view.id with
    | some error =>
      some (s.call (.added o false), { acks := [{ id := o.view.id, revision, error := some error }] })
    | none =>
      let s := s.call (.added o true)
      if s.revocation ≠ revocation then some (s.startRemoved F o, {})
      else
        let (s, acks) := s.accept o revision
        some (s, { acks })

/-- `Observer::reject`. -/
def reject (s : State V) (o : Observer V) (error : ErrorBody) : State V × List Ack :=
  let s := { s with rejection := Function.update s.rejection o.ref (some error) }
  if s.active o.ref then
    let s := s.deactivate o
    let s := if s.listed then s.dropInactive.enqueue .republish else s
    (s, [{ id := o.view.id, revision := s.announced o.ref, error := some error }])
  else (s, [])

def step [DecidableEq V] (F : Function V) (s : State V) : Act V → Option (State V × Sent V)
  | .functionRegistered epoch ns revision localDispatch observers =>
    if s.listed then
      some (s.enqueue (.registered s.revocation epoch ns revision localDispatch observers), {})
    else none
  | .observerAdded ns revision observer =>
    if s.listed then some (s.enqueue (.added ns revision observer), {}) else none
  | .observerRemoved revision id => if s.listed then some (s.enqueue (.removed revision id), {}) else none
  | .release => some (s.release, {})
  | .reset last => some (s.enqueue (.reset last), {})
  | .unlist => some ({ s with listed := false }, {})
  | .reject o error =>
    if o ∈ s.made then
      let (s, acks) := s.reject o error
      some (s, { acks })
    else none
  | .next => s.next F
  | .finish outcome => s.finish F outcome

/-- The task goes on with its operation, or takes the next one. -/
theorem next_cases [DecidableEq V] {F : Function V} {s s' : State V} {r : Sent V} (h : s.next F = some (s', r)) :
    (∃ item todo, s.running = none ∧ s.todo = item :: todo ∧
      ({ s with todo := todo }.work F item).1 = s' ∧ r = { acks := ({ s with todo := todo }.work F item).2 }) ∨
    ∃ op ops, s.running = none ∧ s.todo = [] ∧ s.ops = op :: ops ∧ ({ s with ops := ops }.take F op).1 = s' ∧
      r = { took := some op, acks := ({ s with ops := ops }.take F op).2 } := by
  unfold next at h
  split at h
  · cases h
  · rename_i item todo hidle htodo
    simp only [Option.some.injEq, Prod.mk.injEq] at h
    exact .inl ⟨item, todo, hidle, htodo, h.1, h.2.symm⟩
  · rename_i op ops hidle htodo hops
    simp only [Option.some.injEq, Prod.mk.injEq] at h
    exact .inr ⟨op, ops, hidle, htodo, hops, h.1, h.2.symm⟩
  · cases h

end State

def machine {V : Type} [DecidableEq V] (F : Function V) : Machine (State V) (Act V) (Sent V) where
  Step := fun s a r s' => s.step F a = some (s', r)

end Iii.Hooks
