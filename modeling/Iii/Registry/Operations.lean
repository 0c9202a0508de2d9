import Iii.Registry.State

/-! The operations of the observer registry, each run to its end, and any sequence of them. -/
namespace Iii.Registry
open Lib
open Iii.Owner (Conn FnKey Flags ObserverState Announcement)
open Hooks (ErrorBody)

/-- An `observe`. Its spec needs the configuration, for the default of `max_in_flight`. -/
structure Request (S : Type) where
  id : String
  spec : (defaultMaxInFlight : Nat) → S
  maxFires : Option Nat
  expiresInMs : Option Nat
  maxInFlight : Option Nat

/-- What the checks of a new request leave: its function and its target, which a hook may have changed. -/
structure Checked where
  function : FnKey
  target : FnKey
  warnings : List String

/-- `char::is_whitespace`. -/
def isWhitespace (c : Char) : Bool :=
  (0x09 ≤ c.toNat && c.toNat ≤ 0x0D) || (0x2000 ≤ c.toNat && c.toNat ≤ 0x200A) ||
    [0x20, 0x85, 0xA0, 0x1680, 0x2028, 0x2029, 0x202F, 0x205F, 0x3000].contains c.toNat

/-- `trim().is_empty()`. -/
def isBlank (text : String) : Bool := text.toList.all isWhitespace

def maxObserverIdLen : Nat := 128

namespace State
variable {S : Type} [DecidableEq S]

/-- The limits: the observers of the connection, and those of the function. -/
def limited (s : State S) (connection : Conn) (function : FnKey) : Option ErrorBody :=
  let owned := ((s.byConnection.values connection).filter fun id => (s.get id).isSome).length
  let onFunction := (s.byFunction function).elim 0 (·.observers.length)
  if owned ≥ s.config.maxPerConnection then
    some ⟨"LIMIT_EXCEEDED", s!"this connection already owns {owned} observers (observers.max_per_connection)"⟩
  else if onFunction ≥ s.config.maxPerFunction then
    some ⟨"LIMIT_EXCEEDED", s!"`{function.2}` already has {onFunction} observers (observers.max_per_function)"⟩
  else none

def newObserver (D : Deps) (s : State S) (connection : Conn) (R : Request S) (checked : Checked) : Observer S :=
  .new
    { id := R.id
      function := checked.function
      target := checked.target
      spec := R.spec s.config.defaultMaxInFlight
      policy :=
        { maxFires := R.maxFires
          expiresInMs := R.expiresInMs
          maxInFlight := max (R.maxInFlight.getD s.config.defaultMaxInFlight) 1
          maxQueue := s.config.maxQueuePerObserver }
      warnings := checked.warnings
      connection := connection
      flags :=
        { observingConnected := true
          functionAvailable := D.isRegistered checked.function
          targetAvailable := D.isRegistered checked.target
          ownerAcked := D.ackedByDefault checked.function
          announced := none
          rejectedByOwner := false
          activatedOnce := false
          failed := none
          disposed := none }
      state := .pending
      reason := none
      fires := 0 }

/-- `after` are the registries once the observer can be found, `closing` the token of a connection that is being torn
down. -/
def create (D : Deps) (s : State S) (connection : Conn) (R : Request S) (tombstone : Option ErrorBody)
    (checked : Except ErrorBody Checked) (after : Deps) (closing : Option Token) : Except ErrorBody (State S) :=
  if isBlank R.id || R.id.utf8ByteSize > maxObserverIdLen then
    .error ⟨"INVALID_ARGS", s!"an observer id is a non-empty string of at most {maxObserverIdLen} bytes"⟩
  else
    match (s.get R.id).bind s.heap with
    | some existing =>
      if existing.connection = connection ∧ existing.spec = R.spec s.config.defaultMaxInFlight then
        .ok (s.notify connection
          (.observeResult R.id existing.state (if existing.state = .error then existing.reason else none)
            existing.warnings))
      else
        .error ⟨"OBSERVER_ID_CONFLICT",
          if existing.connection = connection then s!"observer `{R.id}` already exists with a different spec"
          else s!"observer `{R.id}` is owned by another connection"⟩
    | none =>
      match tombstone with
      | some reason => .ok (s.notify connection (.observeResult R.id .disposed (some reason) []))
      | none => do
        let checked ← checked
        match s.limited connection checked.function with
        | some error => .error error
        | none =>
          let o := s.newObserver D connection R checked
          let r := s.next
          let s := (s.publish D o).update r fun flags =>
            { flags with
              functionAvailable := after.isRegistered o.function
              targetAvailable := after.isRegistered o.target }
          match closing with
          | some token => .ok (s.connectionClosed connection token true)
          | none => .ok s

def observe (D : Deps) (s : State S) (connection : Conn) (R : Request S) (tombstone : Option ErrorBody)
    (checked : Except ErrorBody Checked) (after : Deps) (closing : Option Token) : State S :=
  match s.create D connection R tombstone checked after closing with
  | .ok s => s
  | .error error => s.notify connection (.observeResult R.id .error (some error) [])

end State

namespace State
variable {S : Type}

def unobserve (s : State S) (connection : Conn) (id : String) : State S :=
  match s.get id with
  | none => s
  | some r =>
    if (s.heap r).any (·.connection = connection) then
      s.dispose r ⟨"UNOBSERVED", "disposed by its observing worker"⟩
    else s

def graceElapsed (s : State S) (connection : Conn) : State S :=
  match s.departed connection with
  | none => s
  | some _ =>
    ((s.byConnection.values connection).filterMap s.get).foldl
      (fun s r =>
        if (s.heap r).any fun o => o.connection = connection ∧ !o.flags.observingConnected then
          s.dispose r
            ⟨"OBSERVER_DISCONNECTED",
              "the observing worker did not reattach within observers.observer_grace_ms"⟩
        else s)
      { s with departed := Function.update s.departed connection none }

/-- `set_observing`, and the id under the new connection. -/
def adopt (s : State S) (r : Ref) (o : Observer S) (connection : Conn) (id : String) : State S :=
  { s.set r { o with connection := connection } with byConnection := s.byConnection.add connection id }

/-- One observer of `previous` goes over to `connection`. -/
def reparent (previous connection : Conn) (s : State S) (id : String) : State S :=
  match s.get id with
  | none => s
  | some r =>
    match s.heap r with
    | none => s
    | some o =>
      if o.connection ≠ previous then s
      else
        let s := s.adopt r o connection id
        -- disposed meanwhile
        if s.get id ≠ some r then { s with byConnection := s.byConnection.take connection id }
        else s.update r fun flags => { flags with observingConnected := true }

def reattach (s : State S) (previous : Conn) (token : Token) (connection : Conn) : State S :=
  if s.departed previous = some token then
    (s.byConnection.values previous).foldl (reparent previous connection)
      { s with
        departed := Function.update s.departed previous none
        byConnection := s.byConnection.clear previous }
  else s

/-- What a change of the function does to one of its observers; `refused` is what `check_on_registration` finds. -/
def changeObserver (registered acked : Bool) (refused : Ref → Option ErrorBody) (s : State S) (r : Ref) : State S :=
  match (if registered then refused r else none) with
  | some error => s.fail r error
  | none =>
    s.update r fun flags =>
      { flags with
        functionAvailable := registered
        ownerAcked := acked
        announced := none
        rejectedByOwner := false }

/-- And to one whose target it is. -/
def changeTarget (registered : Bool) (refused : Ref → Option ErrorBody) (s : State S) (id : String) : State S :=
  match s.get id with
  | none => s
  | some r =>
    match (if registered then refused r else none) with
    | some error => s.fail r error
    | none => s.update r fun flags => { flags with targetAvailable := registered }

/-- What the change means for the observers of the function. -/
def changeFunction (D : Deps) (s : State S) (key : FnKey) (registered : Bool) (refused : Ref → Option ErrorBody) :
    State S :=
  match s.byFunction key with
  | none => s
  | some e =>
    let acked := registered && D.ackedByDefault key
    let s := s.setEntry key (some
      { e with
        descriptor := if registered then e.descriptor else none
        announcedTo := none
        announced := false })
    ((e.observers.foldl (changeObserver registered acked refused) s).refreshActive key).dropEntryIfUnused key

def onFunctionChange (D : Deps) (s : State S) (key : FnKey) (registered : Bool)
    (refused refusedTarget : Ref → Option ErrorBody) : State S :=
  let s := s.changeFunction D key registered refused
  (s.byTarget.values key).foldl (changeTarget registered refusedTarget) s

/-- Neither failed nor disposed. -/
def isHeld (s : State S) (r : Ref) : Bool :=
  (s.heap r).any fun o => o.flags.failed.isNone && o.flags.disposed.isNone

/-- `speaks` is whether the worker declared `observe.v1`. -/
def functionRegistered (D : Deps) (s : State S) (worker : Conn) (speaks : Bool) (key : FnKey) (localDispatch : Bool) :
    State S :=
  if !speaks then s
  else
    let (s, e) := s.entryFor key
    if (D.ownerOf key).map (·.connection) ≠ some worker ∨ e.announcedTo = some worker then s.dropEntryIfUnused key
    else
      let revision := e.revision + 1
      let observers := e.observers.filter s.isHeld
      let s := s.setEntry key (some { e with announcedTo := some worker, announced := true, revision := revision })
      (observers.foldl (fun s r => s.announce r worker revision) s).notify worker
        (.functionRegistered key revision localDispatch observers)

def observerAck (s : State S) (connection : Conn) (key : FnKey) (id : String) (revision : Nat)
    (error : Option ErrorBody) : State S :=
  match (s.get id).filter fun r => (s.heap r).any (·.function = key) with
  | none => s
  | some r =>
    match error with
    | none =>
      s.update r fun flags =>
        if Owner.State.answers flags connection revision ∧ flags.failed.isNone then { flags with ownerAcked := true }
        else flags
    | some error =>
      s.update r fun flags =>
        if Owner.State.answers flags connection revision ∧ flags.failed.isNone ∧ flags.disposed.isNone then
          { flags with rejectedByOwner := !flags.ownerAcked, failed := some error }
        else flags

def ackTimedOut (s : State S) (r : Ref) (generation : Nat) : State S :=
  s.update r fun flags =>
    if flags.announced.any (·.generation = generation) ∧ !flags.ownerAcked ∧ flags.failed.isNone ∧
        flags.disposed.isNone then
      { flags with
        failed := some
          ⟨"OWNER_TIMEOUT", "the function's owner did not ack the observer within observers.owner_ack_timeout_ms"⟩ }
    else flags

def setDescriptor (s : State S) (key : FnKey) (descriptor : Option Delivery) : State S :=
  match descriptor with
  | some delivery =>
    let (s, e) := s.entryFor key
    s.setEntry key (some { e with descriptor := some delivery })
  | none =>
    match s.byFunction key with
    | some e => (s.setEntry key (some { e with descriptor := none })).dropEntryIfUnused key
    | none => s

end State

/-- An observer is disposed by its timer, a limit or an admin, and fails by a check; `fired` is an event that takes one
of its fires. -/
inductive Op (S : Type) where
  | observe (connection : Conn) (R : Request S) (tombstone : Option ErrorBody) (checked : Except ErrorBody Checked)
      (after : Deps) (closing : Option Token)
  | unobserve (connection : Conn) (id : String)
  | dispose (r : Ref) (reason : ErrorBody)
  | fail (r : Ref) (error : ErrorBody)
  | fired (r : Ref)
  | connectionClosed (connection : Conn) (token : Token) (runtime : Bool)
  | graceElapsed (connection : Conn)
  | reattach (previous : Conn) (token : Token) (connection : Conn)
  | onFunctionChange (key : FnKey) (registered : Bool) (refused refusedTarget : Ref → Option ErrorBody)
  | functionRegistered (worker : Conn) (speaks : Bool) (key : FnKey) (localDispatch : Bool)
  | observerAck (connection : Conn) (key : FnKey) (id : String) (revision : Nat) (error : Option ErrorBody)
  | ackTimedOut (r : Ref) (generation : Nat)
  | setDescriptor (key : FnKey) (descriptor : Option Delivery)
  | setConfig (config : ObserversConfig)

variable {S : Type} [DecidableEq S]

def State.step (s : State S) (a : Deps × Op S) : State S :=
  match a.2 with
  | .observe connection R tombstone checked after closing => s.observe a.1 connection R tombstone checked after closing
  | .unobserve connection id => s.unobserve connection id
  | .dispose r reason => s.dispose r reason
  | .fail r error => s.fail r error
  | .fired r => (s.heap r).elim s fun o => s.set r { o with fires := o.fires + 1 }
  | .connectionClosed connection token runtime => s.connectionClosed connection token runtime
  | .graceElapsed connection => s.graceElapsed connection
  | .reattach previous token connection => s.reattach previous token connection
  | .onFunctionChange key registered refused refusedTarget =>
    s.onFunctionChange a.1 key registered refused refusedTarget
  | .functionRegistered worker speaks key localDispatch => s.functionRegistered a.1 worker speaks key localDispatch
  | .observerAck connection key id revision error => s.observerAck connection key id revision error
  | .ackTimedOut r generation => s.ackTimedOut r generation
  | .setDescriptor key descriptor => s.setDescriptor key descriptor
  | .setConfig config => { s with config := config }

def State.run (s : State S) (acts : List (Deps × Op S)) : State S := acts.foldl State.step s

end Iii.Registry
