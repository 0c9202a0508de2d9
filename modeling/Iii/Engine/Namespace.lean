import Iii.Lib.System
import Mathlib.Logic.Function.Basic

/-! How a connection finds its namespace (`engine/mod.rs`).

Registrations a worker sends before its namespace is known wait in a queue. The first
`resolve_connection_namespace`, by `engine::workers::register` or by the grace timer,
fixes the namespace and empties the queue on its own task, while the read loop goes on
reading and puts what it reads behind the rest. Teardown aborts all of it. -/
namespace Iii.Engine
open Lib

inductive Kind where
  | unregisterTriggerType
  | registerTriggerType
  | registerTrigger
  | triggerRegistrationResult
  | unregisterTrigger
  | registerFunction
  | unregisterFunction
  | invokeFunction
  | invocationResult
  | registerService
  | ping
  | pong
  | reattach
  | workerRegistered
  | registrationRejected
  | observe
  | unobserve
  | observeResult
  | observerStateChanged
  | functionRegistered
  | observerAdded
  | observerRemoved
  | observerAck
  | invocationsObserved
  | localInvocationStats
  deriving DecidableEq

/-- A message of the worker protocol. Routing reads nothing but its kind. -/
structure Message (P : Type) where
  kind : Kind
  body : P

variable {P : Type}

/-- The messages whose effect depends on the namespace of the connection, or on the order
they stand in among those. -/
def isNamespacedRegistration (msg : Message P) : Bool :=
  match msg.kind with
  | .registerFunction | .registerService | .unregisterFunction | .registerTrigger
  | .unregisterTrigger | .registerTriggerType | .unregisterTriggerType | .observe | .unobserve => true
  | _ => false

inductive NamespaceState (P : Type) where
  | pending (queue : List (Message P))
  | draining (namespace_ : String) (queue : List (Message P))
  | resolved (namespace_ : String)
  | aborted (namespace_ : String)

def defaultNamespace : String := "default"

/-! ### The sections under the guard of the map

`none` is a connection that is not tracked. -/

def connectionNamespace : Option (NamespaceState P) → String
  | some (.resolved ns) | some (.draining ns _) | some (.aborted ns) => ns
  | _ => defaultNamespace

/-- Whether the message was queued (or swallowed) and must not be dispatched. -/
def bufferUntilNamespaceKnown (msg : Message P) (state : Option (NamespaceState P)) :
    Bool × Option (NamespaceState P) :=
  if !isNamespacedRegistration msg then
    (false, state)
  else
    match state with
    | none => (false, none)
    | some (.pending queue) => (true, some (.pending (queue ++ [msg])))
    | some (.draining ns queue) => (true, some (.draining ns (queue ++ [msg])))
    | some (.resolved ns) => (false, some (.resolved ns))
    | some (.aborted ns) => (true, some (.aborted ns))

def abortNamespaceResolution : Option (NamespaceState P) → Option (NamespaceState P)
  | none => none
  | some (.pending _) => some (.aborted defaultNamespace)
  | some (.draining ns _) | some (.resolved ns) | some (.aborted ns) => some (.aborted ns)

/-- The opening of `resolve_connection_namespace`: whether this call fixes the namespace. -/
def beginDrain (ns : String) : Option (NamespaceState P) → Bool × Option (NamespaceState P)
  | some (.pending queue) => (true, some (.draining ns queue))
  | state => (false, state)

/-- One round of its loop: the message to dispatch, or the end of the call. -/
def drainNext : Option (NamespaceState P) → Option (Message P) × Option (NamespaceState P)
  | some (.draining ns (msg :: queue)) => (some msg, some (.draining ns queue))
  | some (.draining ns []) => (none, some (.resolved ns))
  | state => (none, state)

def queued : Option (NamespaceState P) → List (Message P)
  | some (.pending queue) | some (.draining _ queue) => queue
  | _ => []

def IsAborted (state : Option (NamespaceState P)) : Prop := ∃ ns, state = some (.aborted ns)

/-! ### The tasks of a connection -/

/-- A call of `resolve_connection_namespace`. The task it runs on may be dropped at any
await, as the grace timer is when `engine::workers::register` comes after it. -/
inductive Call (P : Type) where
  | idle
  | called (namespace_ : String)
  | draining (namespace_ : String)
  | dispatching (namespace_ : String) (msg : Message P)
  | returned (namespace_ : String) (won : Bool)
  | cancelled (namespace_ : String)

/-- A connection, with what has happened on it: the registrations read before teardown, the
dispatches that started and ended in that order, what the abort found queued, and the call
that fixed the namespace. -/
structure Connection (P : Type) where
  state : Option (NamespaceState P)
  reader : Option (Message P)
  calls : Nat → Call P
  arrived : List (Message P)
  started : List (Message P)
  ended : List (Message P)
  dropped : List (Message P)
  first : Option (Nat × String)

namespace Connection

def accepted : Connection P where
  state := some (.pending [])
  reader := none
  calls := fun _ => .idle
  arrived := []
  started := []
  ended := []
  dropped := []
  first := none

/-- The registrations among the messages. -/
def registrations (msgs : List (Message P)) : List (Message P) := msgs.filter isNamespacedRegistration

/-- The steps of the read loop, of the calls and of teardown. A message starts being
dispatched where it leaves the queue, or where the read loop finds it need not be queued. -/
inductive Step : Connection P → Connection P → Prop
  | readBuffered (c : Connection P) (msg : Message P) (state' : Option (NamespaceState P))
      (hreader : c.reader = none) (hbuffer : bufferUntilNamespaceKnown msg c.state = (true, state'))
      (harrived : ¬ IsAborted c.state) :
      Step c { c with state := state', arrived := c.arrived ++ [msg] }
  | readSwallowed (c : Connection P) (msg : Message P) (state' : Option (NamespaceState P))
      (hreader : c.reader = none) (hbuffer : bufferUntilNamespaceKnown msg c.state = (true, state'))
      (haborted : IsAborted c.state) :
      Step c { c with state := state' }
  | readDirect (c : Connection P) (msg : Message P) (state' : Option (NamespaceState P))
      (hreader : c.reader = none) (hbuffer : bufferUntilNamespaceKnown msg c.state = (false, state')) :
      Step c { c with state := state', reader := some msg,
                      arrived := c.arrived ++ registrations [msg],
                      started := c.started ++ registrations [msg] }
  | readerEnd (c : Connection P) (msg : Message P) (hreader : c.reader = some msg) :
      Step c { c with reader := none, ended := c.ended ++ registrations [msg] }
  | call (c : Connection P) (i : Nat) (ns : String) (hcall : c.calls i = .idle) :
      Step c { c with calls := Function.update c.calls i (.called ns) }
  | beginLost (c : Connection P) (i : Nat) (ns : String) (state' : Option (NamespaceState P))
      (hcall : c.calls i = .called ns) (hbegin : beginDrain ns c.state = (false, state')) :
      Step c { c with state := state', calls := Function.update c.calls i (.returned ns false) }
  | beginWon (c : Connection P) (i : Nat) (ns : String) (state' : Option (NamespaceState P))
      (hcall : c.calls i = .called ns) (hbegin : beginDrain ns c.state = (true, state')) :
      Step c { c with state := state', calls := Function.update c.calls i (.draining ns),
                      first := some (i, ns) }
  | drainMessage (c : Connection P) (i : Nat) (ns : String) (msg : Message P)
      (state' : Option (NamespaceState P)) (hcall : c.calls i = .draining ns)
      (hnext : drainNext c.state = (some msg, state')) :
      Step c { c with state := state', calls := Function.update c.calls i (.dispatching ns msg),
                      started := c.started ++ [msg] }
  | drainEnd (c : Connection P) (i : Nat) (ns : String) (state' : Option (NamespaceState P))
      (hcall : c.calls i = .draining ns) (hnext : drainNext c.state = (none, state')) :
      Step c { c with state := state', calls := Function.update c.calls i (.returned ns true) }
  | dispatchEnd (c : Connection P) (i : Nat) (ns : String) (msg : Message P)
      (hcall : c.calls i = .dispatching ns msg) :
      Step c { c with calls := Function.update c.calls i (.draining ns), ended := c.ended ++ [msg] }
  | cancel (c : Connection P) (i : Nat) (ns : String)
      (hcall : c.calls i = .called ns ∨ c.calls i = .draining ns) :
      Step c { c with calls := Function.update c.calls i (.cancelled ns) }
  | cancelDispatch (c : Connection P) (i : Nat) (ns : String) (msg : Message P)
      (hcall : c.calls i = .dispatching ns msg) :
      Step c { c with calls := Function.update c.calls i (.cancelled ns), ended := c.ended ++ [msg] }
  | abort (c : Connection P) :
      Step c { c with state := abortNamespaceResolution c.state, dropped := c.dropped ++ queued c.state }

/-- Connections as they are accepted, and what may happen on them. -/
def system (P : Type) : System (Connection P) where
  Init := fun c => c = accepted
  Step := Step

end Connection

/-! ### What each section does -/

section
variable {msg : Message P} {ns : String} {state state' : Option (NamespaceState P)}

theorem buffered_cases (h : bufferUntilNamespaceKnown msg state = (true, state')) :
    isNamespacedRegistration msg = true ∧
      ((∃ queue, state = some (.pending queue) ∧ state' = some (.pending (queue ++ [msg]))) ∨
        (∃ ns queue, state = some (.draining ns queue) ∧ state' = some (.draining ns (queue ++ [msg]))) ∨
        (IsAborted state ∧ state' = state)) := by
  unfold bufferUntilNamespaceKnown at h
  split at h
  · cases h
  · rename_i hreg
    refine ⟨by simpa using hreg, ?_⟩
    rcases state with _ | (queue | ⟨ns, queue⟩ | ns | ns)
    · cases h
    · cases h
      exact .inl ⟨queue, rfl, rfl⟩
    · cases h
      exact .inr (.inl ⟨ns, queue, rfl, rfl⟩)
    · cases h
    · cases h
      exact .inr (.inr ⟨⟨ns, rfl⟩, rfl⟩)

theorem direct_cases (h : bufferUntilNamespaceKnown msg state = (false, state')) :
    state' = state ∧
      (isNamespacedRegistration msg = false ∨ state = none ∨ ∃ ns, state = some (.resolved ns)) := by
  unfold bufferUntilNamespaceKnown at h
  split at h
  · rename_i hreg
    cases h
    exact ⟨rfl, .inl (by simpa using hreg)⟩
  · rcases state with _ | (queue | ⟨ns, queue⟩ | ns | ns)
    · cases h
      exact ⟨rfl, .inr (.inl rfl)⟩
    · cases h
    · cases h
    · cases h
      exact ⟨rfl, .inr (.inr ⟨ns, rfl⟩)⟩
    · cases h

theorem beginDrain_won (h : beginDrain ns state = (true, state')) :
    ∃ queue, state = some (.pending queue) ∧ state' = some (.draining ns queue) := by
  rcases state with _ | (queue | ⟨ns, queue⟩ | ns | ns) <;> cases h
  exact ⟨queue, rfl, rfl⟩

theorem beginDrain_lost (h : beginDrain ns state = (false, state')) :
    state' = state ∧ ∀ queue, state ≠ some (.pending queue) := by
  rcases state with _ | (queue | ⟨ns, queue⟩ | ns | ns) <;> cases h <;> simp

theorem drainNext_message (h : drainNext state = (some msg, state')) :
    ∃ ns queue, state = some (.draining ns (msg :: queue)) ∧ state' = some (.draining ns queue) := by
  rcases state with _ | (queue | ⟨ns, _ | ⟨msg, queue⟩⟩ | ns | ns) <;> cases h
  exact ⟨ns, queue, rfl, rfl⟩

theorem drainNext_end (h : drainNext state = (none, state')) :
    (∃ ns, state = some (.draining ns []) ∧ state' = some (.resolved ns)) ∨
      (state' = state ∧ ∀ ns queue, state ≠ some (.draining ns queue)) := by
  rcases state with _ | (queue | ⟨ns, _ | ⟨msg, queue⟩⟩ | ns | ns) <;> cases h <;> simp

theorem abort_cases (state : Option (NamespaceState P)) :
    (state = none ∧ abortNamespaceResolution state = none) ∨
      ∃ ns, connectionNamespace state = ns ∧ abortNamespaceResolution state = some (.aborted ns) := by
  rcases state with _ | (queue | ⟨ns, queue⟩ | ns | ns) <;> simp [abortNamespaceResolution, connectionNamespace]

end

namespace Connection

/-- The registration `msg` is being dispatched, on the read loop or by a call. -/
def Dispatching (c : Connection P) (task : Option Nat) (msg : Message P) : Prop :=
  match task with
  | none => c.reader = some msg ∧ isNamespacedRegistration msg = true
  | some i => ∃ ns, c.calls i = .dispatching ns msg

/-- Where the call that fixed the namespace stands. -/
def stage (c : Connection P) : Call P :=
  match c.first with
  | none => .idle
  | some (i, _) => c.calls i

/-- The five phases of a connection, each with what the read loop (`reading`) and both
tasks together (`current`) are dispatching. Only the last call to fix the namespace
dispatches, and the read loop only once that call is done. -/
inductive Phase : Option (Nat × String) → Call P → Option (NamespaceState P) → List (Message P) →
    List (Message P) → Prop
  | unresolved (state : Option (NamespaceState P))
      (h : (∃ queue, state = some (.pending queue)) ∨ IsAborted state) : Phase none .idle state [] []
  | draining (i : Nat) (ns : String) (state : Option (NamespaceState P))
      (h : (∃ queue, state = some (.draining ns queue)) ∨ state = some (.aborted ns)) :
      Phase (some (i, ns)) (.draining ns) state [] []
  | dispatching (i : Nat) (ns : String) (msg : Message P) (state : Option (NamespaceState P))
      (h : (∃ queue, state = some (.draining ns queue)) ∨ state = some (.aborted ns)) :
      Phase (some (i, ns)) (.dispatching ns msg) state [] [msg]
  | done (i : Nat) (ns : String) (state : Option (NamespaceState P)) (reading : List (Message P))
      (h : state = some (.resolved ns) ∨ state = some (.aborted ns)) :
      Phase (some (i, ns)) (.returned ns true) state reading reading
  | cancelled (i : Nat) (ns : String) (state : Option (NamespaceState P))
      (h : (∃ queue, state = some (.draining ns queue)) ∨ state = some (.aborted ns)) :
      Phase (some (i, ns)) (.cancelled ns) state [] []

namespace Phase
variable {first : Option (Nat × String)} {call : Call P} {state state' : Option (NamespaceState P)}
  {reading current : List (Message P)} {msg : Message P} {ns : String}

theorem buffered (h : Phase first call state reading current)
    (hbuffer : bufferUntilNamespaceKnown msg state = (true, state')) :
    Phase first call state' reading current := by
  obtain ⟨-, ⟨queue, rfl, rfl⟩ | ⟨ns, queue, rfl, rfl⟩ | ⟨-, rfl⟩⟩ := buffered_cases hbuffer
  · cases h with
    | unresolved _ h => exact .unresolved _ (.inl ⟨_, rfl⟩)
    | draining i ns _ h | dispatching i ns msg _ h | done i ns _ _ h | cancelled i ns _ h => simp at h
  · cases h with
    | unresolved _ h => simp [IsAborted] at h
    | done i ns _ _ h => simp at h
    | draining i ns _ h =>
      obtain ⟨_, h⟩ | h := h <;> cases h
      exact .draining i ns _ (.inl ⟨_, rfl⟩)
    | dispatching i ns msg _ h =>
      obtain ⟨_, h⟩ | h := h <;> cases h
      exact .dispatching i ns msg _ (.inl ⟨_, rfl⟩)
    | cancelled i ns _ h =>
      obtain ⟨_, h⟩ | h := h <;> cases h
      exact .cancelled i ns _ (.inl ⟨_, rfl⟩)
  · exact h

theorem abort (h : Phase first call state reading current) :
    Phase first call (abortNamespaceResolution state) reading current := by
  cases h with
  | unresolved _ h =>
    obtain ⟨queue, rfl⟩ | ⟨ns, rfl⟩ := h
    · exact .unresolved _ (.inr ⟨_, rfl⟩)
    · exact .unresolved _ (.inr ⟨_, rfl⟩)
  | draining i ns _ h =>
    obtain ⟨queue, rfl⟩ | rfl := h <;> exact .draining i ns _ (.inr rfl)
  | dispatching i ns msg _ h =>
    obtain ⟨queue, rfl⟩ | rfl := h <;> exact .dispatching i ns msg _ (.inr rfl)
  | done i ns _ _ h =>
    obtain rfl | rfl := h <;> exact .done i ns _ _ (.inr rfl)
  | cancelled i ns _ h =>
    obtain ⟨queue, rfl⟩ | rfl := h <;> exact .cancelled i ns _ (.inr rfl)

theorem direct (h : Phase first call (some (.resolved ns)) [] current) (reading : List (Message P)) :
    current = [] ∧ Phase first call (some (.resolved ns)) reading reading := by
  cases h with
  | unresolved _ h => simp [IsAborted] at h
  | draining i ns _ h | dispatching i ns msg _ h | cancelled i ns _ h => simp at h
  | done i ns _ _ h => exact ⟨rfl, .done i ns _ _ h⟩

theorem readEnd (h : Phase first call state reading current) (hreading : reading ≠ []) :
    current = reading ∧ Phase first call state [] [] := by
  cases h with
  | unresolved _ h | draining i ns _ h | dispatching i ns msg _ h | cancelled i ns _ h =>
    exact absurd rfl hreading
  | done i ns _ _ h => exact ⟨rfl, .done i ns _ _ h⟩

theorem won {queue : List (Message P)} (h : Phase first call (some (.pending queue)) reading current) (i : Nat)
    (ns : String) :
    first = none ∧ Phase (some (i, ns)) (.draining ns) (some (.draining ns queue)) reading current := by
  cases h with
  | unresolved _ h => exact ⟨rfl, .draining i ns _ (.inl ⟨_, rfl⟩)⟩
  | draining i ns _ h | dispatching i ns msg _ h | done i ns _ _ h | cancelled i ns _ h => simp at h

theorem next (h : Phase first (.draining ns) state reading current)
    (hnext : drainNext state = (some msg, state')) :
    current = [] ∧ Phase first (.dispatching ns msg) state' reading [msg] := by
  obtain ⟨ns', queue, rfl, rfl⟩ := drainNext_message hnext
  cases h with
  | draining i ns _ h =>
    obtain ⟨_, h⟩ | h := h <;> cases h
    exact ⟨rfl, .dispatching i ns msg _ (.inl ⟨_, rfl⟩)⟩

theorem drained (h : Phase first (.draining ns) state reading current) (hnext : drainNext state = (none, state')) :
    Phase first (.returned ns true) state' reading current := by
  cases h with
  | draining i ns _ h =>
    obtain ⟨ns', rfl, rfl⟩ | ⟨rfl, hne⟩ := drainNext_end hnext
    · obtain ⟨_, h⟩ | h := h <;> cases h
      exact .done i ns _ _ (.inl rfl)
    · obtain ⟨queue, rfl⟩ | rfl := h
      · exact absurd rfl (hne ns queue)
      · exact .done i ns _ _ (.inr rfl)

theorem dispatched (h : Phase first (.dispatching ns msg) state reading current) :
    current = [msg] ∧ Phase first (.draining ns) state reading [] := by
  cases h with
  | dispatching i ns msg _ h => exact ⟨rfl, .draining i ns _ h⟩

theorem cancel (h : Phase first (.draining ns) state reading current) :
    Phase first (.cancelled ns) state reading current := by
  cases h with
  | draining i ns _ h => exact .cancelled i ns _ h

theorem tracked (h : Phase first call state reading current) : state ≠ none := by
  cases h with
  | unresolved _ h => obtain ⟨_, rfl⟩ | ⟨_, rfl⟩ := h <;> simp
  | draining i ns _ h | dispatching i ns msg _ h | cancelled i ns _ h => obtain ⟨_, rfl⟩ | rfl := h <;> simp
  | done i ns _ _ h => obtain rfl | rfl := h <;> simp

/-- While something is being dispatched the connection has the namespace of the first call. -/
theorem namespace_eq (h : Phase first call state reading current) (hcurrent : current ≠ []) :
    ∃ i ns, first = some (i, ns) ∧ connectionNamespace state = ns := by
  cases h with
  | unresolved _ h | draining i ns _ h | cancelled i ns _ h => exact absurd rfl hcurrent
  | dispatching i ns msg _ h =>
    obtain ⟨_, rfl⟩ | rfl := h <;> exact ⟨i, ns, rfl, rfl⟩
  | done i ns _ _ h =>
    obtain rfl | rfl := h <;> exact ⟨i, ns, rfl, rfl⟩

end Phase

structure Inv (c : Connection P) : Prop where
  once : c.arrived = c.started ++ queued c.state ++ c.dropped
  dropped : ¬ IsAborted c.state → c.dropped = []
  phase : ∃ current, Phase c.first c.stage c.state (registrations c.reader.toList) current ∧
    c.started = c.ended ++ current
  active : ∀ i ns, (c.calls i = .draining ns ∨ (∃ msg, c.calls i = .dispatching ns msg) ∨
    c.calls i = .returned ns true) → c.first = some (i, ns)
  lost : ∀ i ns, c.calls i = .returned ns false → ∀ queue, c.state ≠ some (.pending queue)

variable {c c' : Connection P}

theorem Inv.accepted : Inv (accepted : Connection P) := by
  refine ⟨rfl, fun _ => rfl, ⟨[], .unresolved _ (.inl ⟨[], rfl⟩), rfl⟩, ?_, ?_⟩ <;> simp [Connection.accepted]

variable {i : Nat} {ns : String}

theorem stage_eq (h : c.first = some (i, ns)) : c.stage = c.calls i := by
  rw [stage, h]

/-- A call that has not begun is not the one that fixed the namespace, so what it does
leaves the phase alone. -/
theorem Inv.stage_update (inv : Inv c) (call : Call P) (hcall : c.calls i = .idle ∨ c.calls i = .called ns) :
    { c with calls := Function.update c.calls i call }.stage = c.stage := by
  obtain ⟨current, hphase, -⟩ := inv.phase
  cases hfirst : c.first with
  | none => simp only [stage, hfirst]
  | some won =>
    obtain ⟨j, ns'⟩ := won
    have hne : j ≠ i := by
      rintro rfl
      rw [stage_eq hfirst, hfirst] at hphase
      rcases hcall with hcall | hcall <;> rw [hcall] at hphase <;> cases hphase
    simp only [stage, hfirst, Function.update_of_ne hne]

/-- What a call that has begun leaves of the claims on the other calls. -/
theorem Inv.active_update (inv : Inv c) {call : Call P}
    (hcall : ∀ ns, (call = .draining ns ∨ (∃ msg, call = .dispatching ns msg) ∨ call = .returned ns true) →
      c.first = some (i, ns)) :
    ∀ j ns, (Function.update c.calls i call j = .draining ns ∨
      (∃ msg, Function.update c.calls i call j = .dispatching ns msg) ∨
      Function.update c.calls i call j = .returned ns true) → c.first = some (j, ns) := by
  intro j ns h
  by_cases hj : j = i
  · subst hj
    rw [Function.update_self] at h
    exact hcall ns h
  · rw [Function.update_of_ne hj] at h
    exact inv.active j ns h

theorem Inv.lost_update (inv : Inv c) {call : Call P}
    (hcall : ∀ ns, call = .returned ns false → ∀ queue, c.state ≠ some (.pending queue)) :
    ∀ j ns, Function.update c.calls i call j = .returned ns false →
      ∀ queue, c.state ≠ some (.pending queue) := by
  intro j ns h
  by_cases hj : j = i
  · subst hj
    rw [Function.update_self] at h
    exact hcall ns h
  · rw [Function.update_of_ne hj] at h
    exact inv.lost j ns h

theorem queued_aborted {state : Option (NamespaceState P)} (h : IsAborted state) : queued state = [] := by
  obtain ⟨ns, rfl⟩ := h
  rfl

theorem Inv.step (inv : Inv c) (h : Step c c') : Inv c' := by
  obtain ⟨current, hphase, hcurrent⟩ := inv.phase
  have honce := inv.once
  cases h with
  | readBuffered msg state' hreader hbuffer harrived =>
    have hdropped := inv.dropped harrived
    refine ⟨?_, fun _ => hdropped, ⟨current, hphase.buffered hbuffer, hcurrent⟩, inv.active, ?_⟩
    · obtain ⟨-, ⟨queue, hs, rfl⟩ | ⟨ns, queue, hs, rfl⟩ | ⟨ha, -⟩⟩ := buffered_cases hbuffer
      · simp [honce, hs, queued, hdropped]
      · simp [honce, hs, queued, hdropped]
      · exact absurd ha harrived
    · intro i ns hlost queue hs
      obtain ⟨-, ⟨queue, hs', rfl⟩ | ⟨ns, queue, hs', rfl⟩ | ⟨ha, -⟩⟩ := buffered_cases hbuffer
      · exact inv.lost i ns hlost _ hs'
      · cases hs
      · exact absurd ha harrived
  | readSwallowed msg state' hreader hbuffer haborted =>
    obtain ⟨ns, ha⟩ := haborted
    obtain rfl : state' = c.state := by
      obtain ⟨-, ⟨queue, hs, -⟩ | ⟨ns, queue, hs, -⟩ | ⟨-, rfl⟩⟩ := buffered_cases hbuffer
      · cases ha.symm.trans hs
      · cases ha.symm.trans hs
      · rfl
    exact inv
  | readDirect msg state' hreader hbuffer =>
    rw [hreader] at hphase
    obtain ⟨rfl, hdirect⟩ := direct_cases hbuffer
    by_cases hreg : isNamespacedRegistration msg = true
    · obtain ⟨ns, hs⟩ : ∃ ns, c.state = some (.resolved ns) := by
        rcases hdirect with hmsg | hnone | hs
        · simp [hreg] at hmsg
        · exact absurd hnone hphase.tracked
        · exact hs
      have hdropped : c.dropped = [] := inv.dropped (by simp [IsAborted, hs])
      rw [hs] at hphase
      obtain ⟨rfl, hphase'⟩ := hphase.direct (registrations [msg])
      rw [← hs] at hphase'
      refine ⟨?_, inv.dropped, ⟨_, hphase', ?_⟩, inv.active, inv.lost⟩
      · simp [honce, hs, queued, hdropped]
      · simp [hcurrent]
    · have hregs : registrations [msg] = [] := by simp [registrations, hreg]
      refine ⟨?_, inv.dropped, ⟨current, ?_, ?_⟩, inv.active, inv.lost⟩
      · simpa [hregs] using honce
      · show Phase _ _ _ (registrations [msg]) _
        rw [hregs]
        exact hphase
      · simpa [hregs] using hcurrent
  | readerEnd msg hreader =>
    rw [hreader] at hphase
    by_cases hregs : registrations [msg] = []
    · refine ⟨honce, inv.dropped, ⟨current, ?_, ?_⟩, inv.active, inv.lost⟩
      · rw [show registrations (some msg).toList = [] from hregs] at hphase
        exact hphase
      · simpa [hregs] using hcurrent
    · obtain ⟨rfl, hphase'⟩ := hphase.readEnd hregs
      refine ⟨honce, inv.dropped, ⟨[], hphase', ?_⟩, inv.active, inv.lost⟩
      simpa using hcurrent
  | call i ns hcall =>
    refine ⟨honce, inv.dropped, ⟨current, ?_, hcurrent⟩, inv.active_update (by simp), inv.lost_update (by simp)⟩
    have hidle : c.calls i = .idle ∨ c.calls i = .called ns := .inl hcall
    rw [inv.stage_update _ hidle]
    exact hphase
  | beginLost i ns state' hcall hbegin =>
    obtain ⟨rfl, hs⟩ := beginDrain_lost hbegin
    refine ⟨honce, inv.dropped, ⟨current, ?_, hcurrent⟩, inv.active_update (by simp),
      inv.lost_update fun _ _ => hs⟩
    rw [inv.stage_update _ (.inr hcall)]
    exact hphase
  | beginWon i ns state' hcall hbegin =>
    obtain ⟨queue, hs, rfl⟩ := beginDrain_won hbegin
    rw [hs] at hphase
    obtain ⟨hfirst, hphase'⟩ := hphase.won i ns
    refine ⟨?_, fun _ => inv.dropped (by simp [IsAborted, hs]), ⟨current, ?_, hcurrent⟩, ?_, ?_⟩
    · simpa [hs, queued] using honce
    · simpa [stage] using hphase'
    · intro j ns' h
      by_cases hj : j = i
      · subst hj
        simp only [Function.update_self, Call.draining.injEq, reduceCtorEq, exists_false, or_false] at h
        rw [h]
      · simp only [Function.update_of_ne hj] at h
        cases hfirst.symm.trans (inv.active j ns' h)
    · intro j ns' _ q
      simp
  | drainMessage i ns msg state' hcall hnext =>
    have hfirst := inv.active i ns (.inl hcall)
    rw [stage_eq hfirst, hcall] at hphase
    obtain ⟨rfl, hphase'⟩ := hphase.next hnext
    obtain ⟨ns', queue, hs, rfl⟩ := drainNext_message hnext
    have hdropped : c.dropped = [] := inv.dropped (by simp [IsAborted, hs])
    refine ⟨?_, fun _ => hdropped, ⟨[msg], ?_, ?_⟩, inv.active_update ?_, ?_⟩
    · simp [honce, hs, queued, hdropped]
    · simpa [stage, hfirst] using hphase'
    · simp [hcurrent]
    · simpa using hfirst
    · intro j ns' _ q
      simp
  | drainEnd i ns state' hcall hnext =>
    have hfirst := inv.active i ns (.inl hcall)
    rw [stage_eq hfirst, hcall] at hphase
    have hphase' := hphase.drained hnext
    have hlost : ∀ j ns', Function.update c.calls i (.returned ns true) j = .returned ns' false →
        ∀ queue, c.state ≠ some (.pending queue) := inv.lost_update (by simp)
    obtain ⟨ns', hs, rfl⟩ | ⟨rfl, hs⟩ := drainNext_end hnext
    · refine ⟨?_, fun _ => inv.dropped (by simp [IsAborted, hs]), ⟨current, ?_, hcurrent⟩,
        inv.active_update ?_, ?_⟩
      · simpa [hs, queued] using honce
      · simpa [stage, hfirst] using hphase'
      · simpa using hfirst
      · intro j ns' _ q
        simp
    · refine ⟨honce, inv.dropped, ⟨current, ?_, hcurrent⟩, inv.active_update ?_, hlost⟩
      · simpa [stage, hfirst] using hphase'
      · simpa using hfirst
  | dispatchEnd i ns msg hcall =>
    have hfirst := inv.active i ns (.inr (.inl ⟨msg, hcall⟩))
    rw [stage_eq hfirst, hcall] at hphase
    obtain ⟨rfl, hphase'⟩ := hphase.dispatched
    refine ⟨honce, inv.dropped, ⟨[], ?_, ?_⟩, inv.active_update ?_, inv.lost_update (by simp)⟩
    · simpa [stage, hfirst] using hphase'
    · simp [hcurrent]
    · simpa using hfirst
  | cancel i ns hcall =>
    refine ⟨honce, inv.dropped, ⟨current, ?_, hcurrent⟩, inv.active_update (by simp), inv.lost_update (by simp)⟩
    rcases hcall with hcall | hcall
    · rw [inv.stage_update _ (.inr hcall)]
      exact hphase
    · have hfirst := inv.active i ns (.inl hcall)
      rw [stage_eq hfirst, hcall] at hphase
      simpa [stage, hfirst] using hphase.cancel
  | cancelDispatch i ns msg hcall =>
    have hfirst := inv.active i ns (.inr (.inl ⟨msg, hcall⟩))
    rw [stage_eq hfirst, hcall] at hphase
    obtain ⟨rfl, hphase'⟩ := hphase.dispatched
    refine ⟨honce, inv.dropped, ⟨[], ?_, ?_⟩, inv.active_update (by simp), inv.lost_update (by simp)⟩
    · simpa [stage, hfirst] using hphase'.cancel
    · simp [hcurrent]
  | abort =>
    have haborted : IsAborted (abortNamespaceResolution c.state) := by
      obtain ⟨hs, -⟩ | ⟨ns, -, ha⟩ := abort_cases c.state
      · exact absurd hs hphase.tracked
      · exact ⟨ns, ha⟩
    refine ⟨?_, fun h => absurd haborted h, ⟨current, hphase.abort, hcurrent⟩, inv.active, ?_⟩
    · by_cases ha : IsAborted c.state
      · simpa [queued_aborted ha, queued_aborted haborted] using honce
      · simp [honce, queued_aborted haborted, inv.dropped ha]
    · obtain ⟨ns, ha⟩ := haborted
      intro i ns' _ queue
      simp [ha]

/-! ### The statement -/

/-- What holds on a connection at any time.

`once` and `oneAtATime` are equations between lists, so they say of every registration that
it is dispatched once, and of any two of them that the first to arrive is through before
the other starts. -/
structure InOrder (c : Connection P) : Prop where
  /-- What arrived before teardown has started, is queued, or was queued at teardown. -/
  once : c.arrived = c.started ++ queued c.state ++ c.dropped
  /-- No two dispatches are in progress, and only the last to start is. -/
  oneAtATime : ∀ task msg, c.Dispatching task msg →
    c.started = c.ended ++ [msg] ∧ ∀ task' msg', c.Dispatching task' msg' → task' = task
  allEnded : (∀ task msg, ¬ c.Dispatching task msg) → c.started = c.ended
  /-- A dispatch sees the namespace the first resolution fixed. -/
  oneNamespace : ∀ task msg, c.Dispatching task msg →
    ∃ i ns, c.first = some (i, ns) ∧ connectionNamespace c.state = ns
  /-- The call that returns true is the one that fixed the namespace. -/
  oneWinner : ∀ i ns, c.calls i = .returned ns true → c.first = some (i, ns)
  /-- It does return true, unless it is dropped, and it leaves nothing queued. -/
  winnerReturns : ∀ i ns, c.first = some (i, ns) → c.calls i = .returned ns true ∨
    c.calls i = .draining ns ∨ (∃ msg, c.calls i = .dispatching ns msg) ∨ c.calls i = .cancelled ns
  winnerDrains : ∀ i ns, c.calls i = .returned ns true → queued c.state = []
  /-- No call fixes the namespace only where teardown came before every call. -/
  noWinner : ∀ i ns, c.calls i = .returned ns false → c.first ≠ none ∨ IsAborted c.state
  /-- After teardown nothing starts being dispatched. -/
  afterAbort : IsAborted c.state → ∀ c', Step c c' → c'.started = c.started ∧ IsAborted c'.state

theorem Inv.reading (inv : Inv c) {msg : Message P} (h : c.Dispatching none msg) :
    c.started = c.ended ++ [msg] ∧ ∃ i ns, c.first = some (i, ns) ∧ connectionNamespace c.state = ns ∧
      c.stage = .returned ns true := by
  obtain ⟨current, hphase, hcurrent⟩ := inv.phase
  have hreading : registrations c.reader.toList = [msg] := by simp [h.1, registrations, h.2]
  rw [hreading] at hphase
  generalize hfirst : c.first = first at hphase
  generalize hstage : c.stage = stage at hphase
  generalize hstate : c.state = state at hphase
  cases hphase with
  | done i ns _ _ hs =>
    refine ⟨hcurrent, i, ns, rfl, ?_, rfl⟩
    obtain rfl | rfl := hs <;> rfl

theorem Inv.replaying (inv : Inv c) {msg : Message P} (h : c.Dispatching (some i) msg) :
    c.started = c.ended ++ [msg] ∧ ∃ ns, c.first = some (i, ns) ∧ connectionNamespace c.state = ns ∧
      c.stage = .dispatching ns msg := by
  obtain ⟨current, hphase, hcurrent⟩ := inv.phase
  obtain ⟨ns, hcall⟩ := h
  have hfirst := inv.active i ns (.inr (.inl ⟨msg, hcall⟩))
  have hstage : c.stage = .dispatching ns msg := (stage_eq hfirst).trans hcall
  rw [hstage] at hphase
  obtain ⟨rfl, -⟩ := hphase.dispatched
  obtain ⟨j, ns', hfirst', hns⟩ := hphase.namespace_eq (by simp)
  cases hfirst.symm.trans hfirst'
  exact ⟨hcurrent, ns, hfirst, hns, hstage⟩

/-- The read loop and the calls never dispatch at once, nor do two calls. -/
theorem Inv.one_task (inv : Inv c) {task task' : Option Nat} {msg msg' : Message P}
    (h : c.Dispatching task msg) (h' : c.Dispatching task' msg') : task' = task := by
  cases task with
  | none =>
    cases task' with
    | none => rfl
    | some j =>
      obtain ⟨-, i, ns, -, -, hstage⟩ := inv.reading h
      obtain ⟨-, ns', -, -, hstage'⟩ := inv.replaying h'
      cases hstage.symm.trans hstage'
  | some i =>
    obtain ⟨-, ns, hfirst, -, hstage⟩ := inv.replaying h
    cases task' with
    | none =>
      obtain ⟨-, i, ns, -, -, hstage'⟩ := inv.reading h'
      cases hstage.symm.trans hstage'
    | some j =>
      obtain ⟨-, ns', hfirst', -, -⟩ := inv.replaying h'
      cases hfirst.symm.trans hfirst'
      rfl

theorem Inv.all_ended (inv : Inv c) (h : ∀ task msg, ¬ c.Dispatching task msg) : c.started = c.ended := by
  obtain ⟨current, hphase, hcurrent⟩ := inv.phase
  have hreading : registrations c.reader.toList = [] := by
    cases hreader : c.reader with
    | none => rfl
    | some msg =>
      have hreg : ¬ isNamespacedRegistration msg = true := fun hreg => h none msg ⟨hreader, hreg⟩
      simp [registrations, hreg]
  rw [hreading] at hphase
  generalize hfirst : c.first = first at hphase
  generalize hstage : c.stage = stage at hphase
  cases hphase with
  | unresolved | draining | done | cancelled => simpa using hcurrent
  | dispatching i ns msg =>
    rw [stage_eq hfirst] at hstage
    exact absurd ⟨ns, hstage⟩ (h (some i) msg)

theorem Inv.winner_stage (inv : Inv c) (h : c.first = some (i, ns)) :
    c.calls i = .returned ns true ∨ c.calls i = .draining ns ∨ (∃ msg, c.calls i = .dispatching ns msg) ∨
      c.calls i = .cancelled ns := by
  obtain ⟨current, hphase, -⟩ := inv.phase
  rw [stage_eq h, h] at hphase
  generalize hcall : c.calls i = call at hphase
  generalize hreading : registrations c.reader.toList = reading at hphase
  cases hphase with
  | draining => exact .inr (.inl rfl)
  | dispatching _ _ msg => exact .inr (.inr (.inl ⟨msg, rfl⟩))
  | done => exact .inl rfl
  | cancelled => exact .inr (.inr (.inr rfl))

theorem Inv.winner_drains (inv : Inv c) (h : c.calls i = .returned ns true) :
    queued c.state = [] := by
  obtain ⟨current, hphase, -⟩ := inv.phase
  have hfirst := inv.active i ns (.inr (.inr h))
  rw [stage_eq hfirst, h, hfirst] at hphase
  generalize hreading : registrations c.reader.toList = reading at hphase
  generalize c.state = state at hphase ⊢
  cases hphase with
  | done _ _ _ _ hs => obtain rfl | rfl := hs <;> rfl

theorem Inv.no_winner (inv : Inv c) (h : c.calls i = .returned ns false) :
    c.first ≠ none ∨ IsAborted c.state := by
  obtain ⟨current, hphase, -⟩ := inv.phase
  have hlost := inv.lost i ns h
  generalize c.stage = stage at hphase
  generalize c.first = first at hphase ⊢
  generalize hreading : registrations c.reader.toList = reading at hphase
  cases hphase with
  | unresolved _ hs =>
    right
    exact hs.resolve_left fun ⟨queue, hs⟩ => hlost queue hs
  | draining | dispatching | done | cancelled => simp

theorem aborted_step (haborted : IsAborted c.state) (h : Step c c') :
    c'.started = c.started ∧ IsAborted c'.state := by
  obtain ⟨ns₀, ha⟩ := haborted
  cases h with
  | readBuffered msg state' hreader hbuffer harrived => exact absurd ⟨ns₀, ha⟩ harrived
  | readSwallowed msg state' hreader hbuffer haborted =>
    obtain ⟨-, ⟨queue, hs, -⟩ | ⟨ns, queue, hs, -⟩ | ⟨-, rfl⟩⟩ := buffered_cases hbuffer
    · cases ha.symm.trans hs
    · cases ha.symm.trans hs
    · exact ⟨rfl, ns₀, ha⟩
  | readDirect msg state' hreader hbuffer =>
    obtain ⟨rfl, hreg | hs | ⟨ns, hs⟩⟩ := direct_cases hbuffer
    · refine ⟨?_, ns₀, ha⟩
      simp [registrations, hreg]
    · cases ha.symm.trans hs
    · cases ha.symm.trans hs
  | beginLost i ns state' hcall hbegin =>
    obtain ⟨rfl, -⟩ := beginDrain_lost hbegin
    exact ⟨rfl, ns₀, ha⟩
  | beginWon i ns state' hcall hbegin =>
    obtain ⟨queue, hs, rfl⟩ := beginDrain_won hbegin
    cases ha.symm.trans hs
  | drainMessage i ns msg state' hcall hnext =>
    obtain ⟨ns', queue, hs, rfl⟩ := drainNext_message hnext
    cases ha.symm.trans hs
  | drainEnd i ns state' hcall hnext =>
    obtain ⟨ns', hs, rfl⟩ | ⟨rfl, -⟩ := drainNext_end hnext
    · cases ha.symm.trans hs
    · exact ⟨rfl, _, ha⟩
  | abort => exact ⟨rfl, ns₀, by rw [ha]; rfl⟩
  | readerEnd | call | dispatchEnd | cancel | cancelDispatch => exact ⟨rfl, ns₀, ha⟩

/-- Whatever the interleaving, the registrations of a connection take effect once, in the
order they were sent, in the namespace of the first resolution. -/
theorem registrations_in_order (c : Connection P) (h : (system P).Reachable c) : InOrder c := by
  have inv : Inv c := by
    refine h.invariant (I := Inv) ?_ ?_
    · rintro c rfl
      exact Inv.accepted
    · intro c c' _ inv hstep
      exact inv.step hstep
  constructor
  case once => exact inv.once
  case oneAtATime =>
    intro task msg hdisp
    refine ⟨?_, fun task' msg' hdisp' => inv.one_task hdisp hdisp'⟩
    cases task with
    | none => exact (inv.reading hdisp).1
    | some i => exact (inv.replaying hdisp).1
  case allEnded => exact inv.all_ended
  case oneNamespace =>
    intro task msg hdisp
    cases task with
    | none =>
      obtain ⟨-, i, ns, hfirst, hns, -⟩ := inv.reading hdisp
      exact ⟨i, ns, hfirst, hns⟩
    | some i =>
      obtain ⟨-, ns, hfirst, hns, -⟩ := inv.replaying hdisp
      exact ⟨i, ns, hfirst, hns⟩
  case oneWinner => exact fun i ns hcall => inv.active i ns (.inr (.inr hcall))
  case winnerReturns => exact fun i ns hfirst => inv.winner_stage hfirst
  case winnerDrains => exact fun i ns hcall => inv.winner_drains hcall
  case noWinner => exact fun i ns hcall => inv.no_winner hcall
  case afterAbort => exact fun ha c' hstep => aborted_step ha hstep

/-- The grace timer drains one function while the next is read. -/
theorem registrations_in_order_draining :
    ∃ c : Connection Unit, (system Unit).Reachable c ∧ c.Dispatching (some 0) ⟨.registerFunction, ()⟩ ∧
      queued c.state = [⟨.registerTrigger, ()⟩] ∧ InOrder c := by
  have h₀ : (system Unit).Reachable accepted := .init rfl
  have h₁ := h₀.step (.readBuffered accepted ⟨.registerFunction, ()⟩ _ rfl rfl (by simp [IsAborted, accepted]))
  have h₂ := h₁.step (.call _ 0 "default" rfl)
  have h₃ := h₂.step (.beginWon _ 0 "default" _ rfl rfl)
  have h₄ := h₃.step (.drainMessage _ 0 "default" _ _ rfl rfl)
  have h₅ := h₄.step (.readBuffered _ ⟨.registerTrigger, ()⟩ _ rfl rfl (by simp [IsAborted]))
  exact ⟨_, h₅, ⟨"default", rfl⟩, rfl, registrations_in_order _ h₅⟩

/-- A call that comes after teardown returns false, and so no call returns true. -/
theorem no_call_wins :
    ∃ c : Connection Unit, (system Unit).Reachable c ∧ (∃ i ns, c.calls i = .returned ns false) ∧
      ∀ i ns, c.calls i ≠ .returned ns true := by
  have h₀ : (system Unit).Reachable accepted := .init rfl
  have h₁ := h₀.step (.abort accepted)
  have h₂ := h₁.step (.call _ 0 "orders" rfl)
  have h₃ := h₂.step (.beginLost _ 0 "orders" _ rfl rfl)
  refine ⟨_, h₃, ⟨0, "orders", rfl⟩, ?_⟩
  intro i ns
  by_cases hi : i = 0
  · subst hi
    simp
  · simp [Function.update_of_ne hi, accepted]

end Connection

end Iii.Engine
