import Iii.Lib.System
import Mathlib.Logic.Function.Basic

/-! Who owns a function (`engine/mod.rs`).

A registration takes four steps: the claim in `function_owners`, the write to `functions`,
for an HTTP invocation a check of its URL in between, and the id list of the connection.
The teardown of a connection works from copies of its lists. All connections here are in
one namespace. -/
namespace Iii.Engine.Functions
open Lib

inductive InvocationKind where
  | regular
  | external
  deriving DecidableEq

/-- An entry of `functions`: the engine's own, or what connection `w` registered with its
message number `n`. -/
inductive Entry where
  | builtin
  | written (w n : Nat)

/-- Where the dispatch of a `RegisterFunction` or `UnregisterFunction` waits: for the hook,
for the check of the URL, or for a lock of the connection's id lists. -/
inductive Dispatch where
  | registering (f : String) (kind : InvocationKind) (n : Nat)
  | validating (f : String) (n : Nat)
  | including (f : String) (kind : InvocationKind)
  | unregistering (f : String)
  | dropping (f : String) (kind : InvocationKind)

/-- A connection and, from `snapshotting` on, where its `cleanup_worker` stands. -/
inductive Phase where
  | absent
  | connected
  | snapshotting
  | snapshotted (regular : List String)
  | releasing (regular external : List String)
  | released
  | gone

/-- A connection; `latest` is its last registration under an id that was written to
`functions`. -/
structure Connection where
  phase : Phase
  functionIds : List String
  externalFunctionIds : List String
  dispatch : Option Dispatch
  latest : String → Option Nat

structure State where
  owners : String → Option (Nat × InvocationKind)
  functions : String → Option Entry
  conn : Nat → Connection

namespace Connection

def absent : Connection := ⟨.absent, [], [], none, fun _ => none⟩

def includeFunctionId (c : Connection) (f : String) : InvocationKind → Connection
  | .regular => { c with functionIds := c.functionIds.insert f }
  | .external => { c with externalFunctionIds := c.externalFunctionIds.insert f }

def removeFunctionId (c : Connection) (f : String) : InvocationKind → Connection
  | .regular => { c with functionIds := c.functionIds.filter (· ≠ f) }
  | .external => { c with externalFunctionIds := c.externalFunctionIds.filter (· ≠ f) }

end Connection

namespace State

/-- The engine with its own functions. -/
def booted (builtins : String → Bool) : State where
  owners := fun _ => none
  functions := fun f => if builtins f then some .builtin else none
  conn := fun _ => .absent

/-- In the worker registry and not tearing down. -/
def isLive (st : State) (w : Nat) : Bool :=
  match (st.conn w).phase with
  | .connected => true
  | _ => false

/-- Whether the claim conflicts with another live connection. -/
def conflicts (st : State) (f : String) (w : Nat) : Bool :=
  match st.owners f with
  | some (previous, _) => previous ≠ w && st.isLive previous
  | none => false

def isOwner (st : State) (w : Nat) (f : String) : Bool :=
  match st.owners f with
  | some (owner, _) => owner = w
  | none => false

def setOwner (st : State) (f : String) (owner : Option (Nat × InvocationKind)) : State :=
  { st with owners := Function.update st.owners f owner }

/-- `none` is a conflict. -/
def claimIn (st : State) (f : String) (w : Nat) (kind : InvocationKind) : Option State :=
  if st.conflicts f w then none else some (st.setOwner f (some (w, kind)))

def releaseExternalFunctionIfOwner (st : State) (w : Nat) (f : String) : State :=
  if st.isOwner w f then st.setOwner f none else st

/-- The function and its owner. `remove_external_function_if_owner` followed by
`release_external_function_if_owner` does the same. -/
def releaseFunctionIfOwner (st : State) (w : Nat) (f : String) : State :=
  if st.isOwner w f then { st.setOwner f none with functions := Function.update st.functions f none } else st

def setConn (st : State) (w : Nat) (c : Connection) : State := { st with conn := Function.update st.conn w c }

def setDispatch (st : State) (w : Nat) (dispatch : Option Dispatch) : State :=
  st.setConn w { st.conn w with dispatch := dispatch }

def setPhase (st : State) (w : Nat) (phase : Phase) : State := st.setConn w { st.conn w with phase := phase }

/-- `functions.register_function_ns`, and the dispatch goes on to the id list. -/
def write (st : State) (w : Nat) (f : String) (n : Nat) (kind : InvocationKind) : State :=
  { st.setConn w { st.conn w with latest := Function.update (st.conn w).latest f (some n)
                                  dispatch := some (.including f kind) } with
    functions := Function.update st.functions f (some (.written w n)) }

end State

/-- The sections between two awaits, by the connection they are a step of. -/
inductive Act where
  | connect (w : Nat)
  | register (w : Nat) (f : String) (kind : InvocationKind) (n : Nat)
  | refuse (w : Nat)
  | claim (w : Nat)
  /-- The claim of an HTTP invocation with no `http_functions` module. -/
  | unloaded (w : Nat)
  | validated (w : Nat)
  | invalid (w : Nat)
  | added (w : Nat)
  | unregister (w : Nat) (f : String)
  | check (w : Nat)
  | drop (w : Nat)
  | cleanup (w : Nat)
  | snapshot (w : Nat)
  | release (w : Nat)
  | unregisterWorker (w : Nat)
  deriving DecidableEq

/-- One step, where the connection stands before such a step. -/
def step (st : State) : Act → Option State
  | .connect w =>
    match (st.conn w).phase with
    | .absent => some (st.setPhase w .connected)
    | _ => none
  | .register w f kind n =>
    match (st.conn w).phase, (st.conn w).dispatch with
    | .absent, _ | _, some _ => none
    | _, none => some (st.setDispatch w (some (.registering f kind n)))
  | .refuse w =>
    match (st.conn w).dispatch with
    | some (.registering ..) => some (st.setDispatch w none)
    | _ => none
  | .claim w =>
    match (st.conn w).dispatch with
    | some (.registering f kind n) =>
      match st.claimIn f w kind, kind with
      | none, _ => some (st.setDispatch w none)
      | some st', .regular => some (st'.write w f n .regular)
      | some st', .external => some (st'.setDispatch w (some (.validating f n)))
    | _ => none
  | .unloaded w =>
    match (st.conn w).dispatch with
    | some (.registering f .external _) =>
      match st.claimIn f w .external with
      | none => some (st.setDispatch w none)
      | some st' => some ((st'.releaseExternalFunctionIfOwner w f).setDispatch w none)
    | _ => none
  | .validated w =>
    match (st.conn w).dispatch with
    | some (.validating f n) => some (st.write w f n .external)
    | _ => none
  | .invalid w =>
    match (st.conn w).dispatch with
    | some (.validating f _) => some ((st.releaseExternalFunctionIfOwner w f).setDispatch w none)
    | _ => none
  | .added w =>
    match (st.conn w).dispatch with
    | some (.including f kind) =>
      some (st.setConn w { (st.conn w).includeFunctionId f kind with dispatch := none })
    | _ => none
  | .unregister w f =>
    match (st.conn w).phase, (st.conn w).dispatch with
    | .absent, _ | _, some _ => none
    | _, none => some (st.setDispatch w (some (.unregistering f)))
  | .check w =>
    match (st.conn w).dispatch with
    | some (.unregistering f) =>
      let kind := if f ∈ (st.conn w).externalFunctionIds then .external else .regular
      some (st.setDispatch w (some (.dropping f kind)))
    | _ => none
  | .drop w =>
    match (st.conn w).dispatch with
    | some (.dropping f kind) =>
      some ((st.releaseFunctionIfOwner w f).setConn w
        { (st.conn w).removeFunctionId f kind with dispatch := none })
    | _ => none
  | .cleanup w =>
    match (st.conn w).phase with
    | .connected => some (st.setPhase w .snapshotting)
    | _ => none
  | .snapshot w =>
    match (st.conn w).phase with
    | .snapshotting => some (st.setPhase w (.snapshotted (st.conn w).functionIds))
    | .snapshotted regular => some (st.setPhase w (.releasing regular (st.conn w).externalFunctionIds))
    | _ => none
  | .release w =>
    match (st.conn w).phase with
    | .releasing (f :: regular) external =>
      some ((st.releaseFunctionIfOwner w f).setPhase w (.releasing regular external))
    | .releasing [] (f :: external) =>
      some ((st.releaseFunctionIfOwner w f).setPhase w (.releasing [] external))
    | .releasing [] [] => some (st.setPhase w .released)
    | _ => none
  | .unregisterWorker w =>
    match (st.conn w).phase with
    | .released => some (st.setPhase w .gone)
    | _ => none

/-! ### Runs -/

def WrittenBy (st : State) (f : String) (w : Nat) : Prop := ∃ n, st.functions f = some (.written w n)

/-- The condition on a step: a connection is torn down between two of its dispatches and
starts none afterwards; an HTTP invocation that gets its claim finds no other connection's
function under the id, and none at all if it then fails; and no connection holds an id
under both kinds. -/
def Meets (st : State) : Act → Prop
  | .register w _ _ _ | .unregister w _ => (st.conn w).phase = .connected
  | .cleanup w => (st.conn w).dispatch = none
  | .claim w => ∀ f kind n, (st.conn w).dispatch = some (.registering f kind n) → st.conflicts f w = false →
      match kind with
      | .regular => f ∉ (st.conn w).externalFunctionIds
      | .external => f ∉ (st.conn w).functionIds ∧ ∀ w', WrittenBy st f w' → w' = w
  | .unloaded w => ∀ f n, (st.conn w).dispatch = some (.registering f .external n) →
      st.conflicts f w = false → ∀ w', ¬ WrittenBy st f w'
  | .invalid w => ∀ f n, (st.conn w).dispatch = some (.validating f n) → ∀ w', ¬ WrittenBy st f w'
  | _ => True

/-- Runs whose steps all meet a condition. -/
def runs (condition : State → Act → Prop) : System State where
  Init := fun st => ∃ builtins, st = .booted builtins
  Step := fun st st' => ∃ act, condition st act ∧ step st act = some st'

/-! ### The statement -/

/-- The id the dispatch has its claim on. -/
def claimed : Option Dispatch → Option String
  | some (.validating f _) | some (.including f _) => some f
  | _ => none

def validating : Option Dispatch → Option String
  | some (.validating f _) => some f
  | _ => none

/-- A connection takes itself for the owner: the id is on one of its lists, or it has its
claim. -/
def Believes (c : Connection) (f : String) : Prop :=
  f ∈ c.functionIds ∨ f ∈ c.externalFunctionIds ∨ claimed c.dispatch = some f

/-- Nothing is in progress. -/
def Quiet (st : State) : Prop :=
  ∀ w, (st.conn w).dispatch = none ∧
    ((st.conn w).phase = .absent ∨ (st.conn w).phase = .connected ∨ (st.conn w).phase = .gone)

/-- `function_owners` names `w`, and `functions` has what it last registered under the id. -/
def Serves (st : State) (w : Nat) (f : String) : Prop :=
  (∃ kind, st.owners f = some (w, kind)) ∧
    ∃ n, st.functions f = some (.written w n) ∧ (st.conn w).latest f = some n

structure Agree (st : State) : Prop where
  /-- Two live connections never both take themselves for the owner. -/
  oneOwner : ∀ w w' f, (st.conn w).phase = .connected → (st.conn w').phase = .connected →
    Believes (st.conn w) f → Believes (st.conn w') f → w = w'
  /-- With nothing in progress the functions of connections are those their owners registered
  last. -/
  quiet : Quiet st → ∀ w f, (WrittenBy st f w ↔ Serves st w f) ∧
    (Serves st w f ↔ ∃ kind, st.owners f = some (w, kind))
  /-- Nothing of a connection is left when its teardown is over. -/
  cleaned : ∀ w, (st.conn w).phase = .gone → (st.conn w).dispatch = none →
    ∀ f, ¬ WrittenBy st f w ∧ ∀ kind, st.owners f ≠ some (w, kind)
  /-- What the other connections registered is there, whoever is torn down. -/
  intact : ∀ w f, (st.conn w).phase = .connected → Believes (st.conn w) f →
    validating (st.conn w).dispatch ≠ some f → Serves st w f

end Iii.Engine.Functions
