import Mathlib.Logic.Function.Basic

/-! The trigger registry (`engine/src/trigger.rs`): its maps, and the sections that write them.

A binding is live in `triggers` or parked in `pending`; `failing` has one entry for each
binding that is being moved, activated or removed, with the token of the operation that
does it. Each function here is what the source does in one go: a section that holds
`park_transition`, or one operation on a map. -/
namespace Iii.Bindings

abbrev TypeKey := String × String

abbrev Worker := Nat

def defaultNamespace : String := "default"

/-- A binding. `content` is what the registry only carries along: the function, the config,
the metadata and the namespace of the target. -/
structure Trigger where
  id : String
  triggerType : String
  content : String
  worker : Option Worker
  triggerNamespace : Option String
  homeNamespace : String
  providerNamespace : String
deriving DecidableEq

namespace Trigger

def providerKey (t : Trigger) : TypeKey := (t.providerNamespace, t.triggerType)

def homeKey (t : Trigger) : TypeKey := (t.homeNamespace, t.triggerType)

def isOnFallback (t : Trigger) : Bool :=
  t.triggerNamespace.isNone && t.providerNamespace != t.homeNamespace

/-- The binding with the provider found in `namespace`. -/
def served (t : Trigger) (namespace_ : String) : Trigger := { t with providerNamespace := namespace_ }

/-- The registration a binding comes from, whoever serves it. -/
def asked (t : Trigger) : Trigger := t.served ""

end Trigger

/-- A provider: `gen` is which registrator it is, new with each registration of the type. -/
structure Provider where
  gen : Nat
  worker : Option Worker
deriving DecidableEq

/-- A provider operation that may finish after its binding is cancelled. -/
structure Transition where
  token : Nat
  worker : Option Worker
  removing : Bool
  target : Trigger
deriving DecidableEq

/-- `held` is what each registrator's provider has taken and not let go of. The last three
fields are history: what the last registration of an id asked for, unless an unregister of it
has returned since or its owner disconnected; how many registrations of it took effect; and
whether an unregister of it returned with none of them in between. -/
structure Registry where
  types : TypeKey → Option Provider
  triggers : String → Option Trigger
  pending : String → Option Trigger
  failing : String → Option Transition
  tokens : Nat
  gens : Nat
  held : Nat → String → Option Trigger
  expected : String → Option Trigger
  editions : String → Nat
  removed : String → Bool

namespace Registry

def empty : Registry where
  types := fun _ => none
  triggers := fun _ => none
  pending := fun _ => none
  failing := fun _ => none
  tokens := 0
  gens := 0
  held := fun _ _ => none
  expected := fun _ => none
  editions := fun _ => 0
  removed := fun _ => false

/-! ### Single operations -/

def providerRegistrator (r : Registry) (key : TypeKey) : Option Nat := (r.types key).map (·.gen)

/-- Where this binding's provider lives. -/
def resolveProviderKey (r : Registry) (t : Trigger) : Option TypeKey :=
  match t.triggerNamespace with
  | some explicit => if (r.types (explicit, t.triggerType)).isSome then some (explicit, t.triggerType) else none
  | none =>
    if (r.types t.homeKey).isSome then some t.homeKey
    else if (r.types (defaultNamespace, t.triggerType)).isSome then some (defaultNamespace, t.triggerType)
    else none

def setTrigger (r : Registry) (t : Trigger) : Registry :=
  { r with triggers := Function.update r.triggers t.id (some t) }

def dropTrigger (r : Registry) (id : String) : Registry :=
  { r with triggers := Function.update r.triggers id none }

def setPending (r : Registry) (t : Trigger) : Registry :=
  { r with pending := Function.update r.pending t.id (some t) }

def dropPending (r : Registry) (id : String) : Registry :=
  { r with pending := Function.update r.pending id none }

def interruptFailover (r : Registry) (id : String) : Registry :=
  { r with failing := Function.update r.failing id none }

/-- The token is `tokens + 1`. -/
def beginTransition (r : Registry) (t : Trigger) (removing : Bool) : Registry :=
  { r with
    tokens := r.tokens + 1
    failing := Function.update r.failing t.id
      (some { token := r.tokens + 1, worker := t.worker, removing, target := t }) }

/-- Whether the operation with this token is still the one in flight. -/
def isCurrent (r : Registry) (id : String) (token : Nat) : Bool :=
  match r.failing id with
  | some operation => operation.token == token
  | none => false

def isRemoving (r : Registry) (id : String) : Bool :=
  match r.failing id with
  | some operation => operation.removing
  | none => false

/-- A registration takes effect. -/
def noteRegistered (r : Registry) (t : Trigger) : Registry :=
  { r with
    expected := Function.update r.expected t.id (some t.asked)
    editions := Function.update r.editions t.id (r.editions t.id + 1)
    removed := Function.update r.removed t.id false }

/-- An unregister that began at `edition` returns `Ok`. -/
def noteUnregistered (r : Registry) (id : String) (edition : Nat) : Registry :=
  { r with
    expected := Function.update r.expected id none
    removed := if r.editions id = edition then Function.update r.removed id true else r.removed }

/-! ### Sections -/

/-- The end of `register_trigger` when the provider took the binding. -/
def publish (r : Registry) (t : Trigger) : Registry :=
  (((r.interruptFailover t.id).dropPending t.id).setTrigger t).noteRegistered t

/-- `register_trigger` parks the binding. -/
def park (r : Registry) (t : Trigger) : Registry :=
  (((r.interruptFailover t.id).dropTrigger t.id).setPending t).noteRegistered t

/-- `claim_parked`: the binding and its new token. -/
def claimParked (r : Registry) (id : String) (key : TypeKey) : Option (Registry × Trigger) :=
  if r.isRemoving id then none else
  (r.pending id).map fun parked =>
    ((r.dropPending id).beginTransition (parked.served key.1) false, parked.served key.1)

/-- What is left of an activation or a move that its caller dropped. `moved` is whether it
has a provider to go back to. -/
def recoverActivation (r : Registry) (id : String) (token : Nat) (moved : Bool) : Registry :=
  match r.failing id with
  | none => r
  | some operation =>
    if operation.token ≠ token then r else
    let r := r.interruptFailover id
    if moved then
      if (r.triggers id).isNone && (r.pending id).isNone then r.setPending operation.target else r
    else (r.dropTrigger id).setPending operation.target

/-- What the provider at `key` is to have for `id`: `desired` in `reconcile_provider`. -/
def wanted (r : Registry) (key : TypeKey) (id : String) : Option Trigger :=
  match r.failing id with
  | some operation =>
    if operation.removing then none
    else if operation.target.providerKey = key then some operation.target else none
  | none => (r.triggers id).filter fun t => t.providerKey = key

def desired (r : Registry) (key : TypeKey) (id : String) : Option (Trigger × Nat) :=
  match r.wanted key id, r.providerRegistrator key with
  | some t, some gen => some (t, gen)
  | _, _ => none

/-- The first section of `unregister_worker`. -/
def forgetWorker (r : Registry) (w : Worker) : Registry :=
  { r with
    failing := fun id => (r.failing id).filter fun operation => operation.worker ≠ some w
    pending := fun id => (r.pending id).filter fun t => t.worker ≠ some w
    expected := fun id => (r.expected id).filter fun t => t.worker ≠ some w }

/-- `unregister_worker` takes a live binding that still belongs to the worker. -/
def dropOwned (r : Registry) (w : Worker) (id : String) : Registry :=
  { (r.dropTrigger id).interruptFailover id with
    expected := Function.update r.expected id ((r.expected id).filter fun t => t.worker ≠ some w) }

/-- The last one, on the parked bindings alone. -/
def forgetPending (r : Registry) (w : Worker) : Registry :=
  { r with
    pending := fun id => (r.pending id).filter fun t => t.worker ≠ some w
    expected := fun id => (r.expected id).filter fun t => t.worker ≠ some w }

/-- A provider takes a binding, or lets go of it. -/
def take (r : Registry) (gen : Nat) (id : String) (binding : Option Trigger) : Registry :=
  { r with held := Function.update r.held gen (Function.update (r.held gen) id binding) }

end Registry

end Iii.Bindings
