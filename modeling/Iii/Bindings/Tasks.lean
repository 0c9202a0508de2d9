import Iii.Lib.Pool
import Iii.Bindings.Registry

/-! The operations of the trigger registry as tasks.

A task is an operation at one of its points: about to run a section or to look something up,
or waiting for a provider. A repair that is spawned is a task of its own. So is each item of
a loop and each operation called by another: the caller goes on at once here, where the source
waits, so every order of steps of the source is one of this model's. -/
namespace Iii.Bindings
open Lib

/-- A call of a registrator: `register_trigger` or `replay_trigger`, or `unregister_trigger`
when it `clears`. The provider acts on it once, at some point before the call returns. -/
structure Call where
  gen : Nat
  trigger : Trigger
  clears : Bool
  taken : Bool
deriving DecidableEq

inductive Answer where
  | ok | rejected | unavailable
deriving DecidableEq

/-- What waits for a call. -/
inductive After where
  | register
  | detach (t : Trigger)
  | activate (token : Nat)
  | replay
  | rehomeDetach (target : Trigger) (token gen : Nat)
  | rehome (source : Trigger) (token : Nat) (old : Option Nat)
  | failOver (token : Nat)
  | remove (token edition : Nat)
  | leave (w : Worker) (ids : List String) (keys : List TypeKey)
  | reconcile (stale : Trigger) (before : Option Trigger)
deriving DecidableEq

inductive Task where
  /-- `register_trigger`, and `again` after it has parked the binding. -/
  | resolveHome (t : Trigger) (again : Bool)
  | resolveFallback (t : Trigger) (again : Bool)
  | lookProvider (t : Trigger) (again : Bool)
  | park (t : Trigger)
  | detach (t live : Trigger)
  | claim (id : String) (key : TypeKey) (gen : Nat)
  | registerType (key : TypeKey) (w : Option Worker)
  | matching (key : TypeKey)
  | replayAll (key : TypeKey) (matching : List Trigger)
  | drain (key : TypeKey) (gen : Nat)
  | claimBack (key : TypeKey)
  | scan (key : TypeKey) (gen : Nat)
  | rehome (id : String) (key : TypeKey) (gen : Nat)
  | rehomeOld (source target : Trigger) (token gen : Nat)
  | rehomeCurrent (source target : Trigger) (token gen old : Nat)
  | takeType (key : TypeKey) (w : Worker)
  | failOver (t : Trigger) (token : Nat)
  | failOverLook (moving : Trigger) (token : Nat)
  | failOverPark (moving : Trigger) (token : Nat)
  | unregister (id : String)
  | removeLook (t : Trigger) (token edition : Nat)
  | removeDone (t : Trigger) (token edition : Nat)
  | leave (w : Worker)
  | leaveTypes (w : Worker)
  | leaveIds (w : Worker) (keys : List TypeKey)
  | leaveLoop (w : Worker) (ids : List String) (keys : List TypeKey)
  | leaveLook (t : Trigger) (w : Worker) (ids : List String) (keys : List TypeKey)
  | leaveCheck (t : Trigger) (gen : Nat) (w : Worker) (ids : List String) (keys : List TypeKey)
  | leaveRest (w : Worker) (keys : List TypeKey)
  | leaveKeys (w : Worker) (keys : List TypeKey)
  | reject (id : String) (reporter : Worker)
  | rejectLook (id : String) (key : TypeKey) (reporter : Worker)
  | reconcile (stale : Trigger) (touched : Nat)
  | await (call : Call) (after : After)
deriving DecidableEq

/-- The calls that the rest of the engine makes. -/
def Task.isStart : Task → Bool
  | .resolveHome _ again => !again
  | .registerType _ _ => true
  | .takeType _ _ => true
  | .unregister _ => true
  | .leave _ => true
  | .reject _ _ => true
  | _ => false

/-- What a caller that is dropped while it waits no longer comes to. -/
def Task.isDroppable : Task → Bool
  | .drain _ _ => true
  | .claimBack _ => true
  | .scan _ _ => true
  | .claim _ _ _ => true
  | .rehome _ _ _ => true
  | .reconcile _ _ => true
  | _ => false

/-- A step of a task: on its own, what its provider does, or the end of its wait. -/
inductive Act where
  | go
  | taken
  | answer (answer : Answer)
  | recheck
  | cancel
deriving DecidableEq

def sets (gen : Nat) (t : Trigger) : Call := { gen, trigger := t, clears := false, taken := false }

def clears (gen : Nat) (t : Trigger) : Call := { gen, trigger := t, clears := true, taken := false }

namespace Registry

/-- `recover_abandoned_removal`: the binding is repaired where it is, or fails over if its
provider is another one by now. -/
def recoverRemoval (r : Registry) (id : String) (token gen : Nat) : Registry × List Task :=
  if !r.isCurrent id token then (r, []) else
  if !r.isRemoving id then (r.interruptFailover id, []) else
  let r := r.interruptFailover id
  match (r.triggers id).or (r.pending id) with
  | none => (r, [])
  | some t =>
    if r.providerRegistrator t.providerKey = some gen then (r, [.reconcile t gen])
    else
      let r := r.dropPending id
      (r.beginTransition t false, [.failOver t (r.tokens + 1)])

/-- `take_trigger_type_if_provider`, when the worker serves the type: `orphans` are claimed
one after the other. -/
def claimOrphans (r : Registry) : List Trigger → Registry × List Task
  | [] => (r, [])
  | orphan :: orphans =>
    let (r', tasks) := (r.beginTransition orphan false).claimOrphans orphans
    (r', .failOver orphan (r.tokens + 1) :: tasks)

/-- No provider resolved, or it is gone again. -/
def unresolved (t : Trigger) (again : Bool) : List Task :=
  if again then [] else [.park t]

/-- Points that need nothing but the registry. -/
def go (r : Registry) : Task → Option (Registry × List Task)
  | .resolveHome t again =>
    match t.triggerNamespace with
    | some explicit =>
      if (r.types (explicit, t.triggerType)).isSome then some (r, [.lookProvider (t.served explicit) again])
      else some (r, unresolved t again)
    | none =>
      if (r.types t.homeKey).isSome then some (r, [.lookProvider (t.served t.homeNamespace) again])
      else some (r, [.resolveFallback t again])
  | .resolveFallback t again =>
    if (r.types (defaultNamespace, t.triggerType)).isSome then
      some (r, [.lookProvider (t.served defaultNamespace) again])
    else some (r, unresolved t again)
  | .lookProvider t again =>
    match r.providerRegistrator t.providerKey with
    | none => some (r, unresolved t again)
    | some gen =>
      if again then some (r, [.claim t.id t.providerKey gen])
      else some (r, [.await (sets gen t) .register])
  | .park t =>
    match r.triggers t.id with
    | some live => some (r.park t, [.detach t live])
    | none => some (r.park t, [.resolveHome t true])
  | .detach t live =>
    match r.providerRegistrator live.providerKey with
    | some gen => some (r, [.await (clears gen live) (.detach t)])
    | none => some (r, [.resolveHome t true])
  | .claim id key gen =>
    match r.claimParked id key with
    | none => some (r, [])
    | some (r', t) => some (r', [.await (sets gen t) (.activate (r.tokens + 1))])
  | .registerType key w =>
    some ({ r with types := Function.update r.types key (some { gen := r.gens, worker := w })
                   gens := r.gens + 1 }, [.matching key])
  | .replayAll key matching =>
    match r.providerRegistrator key with
    | some gen => some (r, matching.map (fun t => .await (sets gen t) .replay) ++ [.drain key gen, .claimBack key])
    | none => some (r, [.claimBack key])
  | .claimBack key =>
    if key.1 = defaultNamespace then some (r, []) else
    match r.providerRegistrator key with
    | some gen => some (r, [.scan key gen])
    | none => some (r, [])
  | .rehome id key gen =>
    match r.triggers id with
    | none => some (r, [])
    | some current =>
      if current.isOnFallback && current.homeNamespace == key.1 && current.triggerType == key.2
          && (r.failing id).isNone then
        some (r.beginTransition (current.served key.1) false,
          [.rehomeOld current (current.served key.1) (r.tokens + 1) gen])
      else some (r, [])
  | .rehomeOld source target token gen =>
    match r.providerRegistrator source.providerKey with
    | some old => some (r, [.await (clears old source) (.rehomeDetach target token gen)])
    | none => some (r, [.await (sets gen target) (.rehome source token none)])
  | .rehomeCurrent source target token gen old =>
    if r.isCurrent source.id token then some (r, [.await (sets gen target) (.rehome source token (some old))])
    else some (r, [.reconcile target gen, .reconcile source old])
  | .failOver t token =>
    if !r.isCurrent t.id token then some (r, []) else
    match r.failing t.id with
    | none => some (r, [])
    | some operation =>
      match r.resolveProviderKey t with
      | some next =>
        some ({ r with failing := Function.update r.failing t.id (some { operation with target := t.served next.1 }) },
          [.failOverLook (t.served next.1) token])
      | none =>
        some ({ r with failing := Function.update r.failing t.id (some { operation with target := t }) },
          [.failOverPark t token])
  | .failOverLook moving token =>
    match r.providerRegistrator moving.providerKey with
    | some gen => some (r, [.await (sets gen moving) (.failOver token)])
    | none => some (r, [.failOverPark moving token])
  | .failOverPark moving token =>
    if r.isCurrent moving.id token then
      some (((r.interruptFailover moving.id).dropTrigger moving.id).setPending moving, [])
    else some (r, [])
  | .unregister id =>
    match r.triggers id with
    | none => some (((r.interruptFailover id).dropPending id).noteUnregistered id (r.editions id), [])
    | some t => some (r.beginTransition t true, [.removeLook t (r.tokens + 1) (r.editions id)])
  | .removeLook t token edition =>
    match r.providerRegistrator t.providerKey with
    | some gen => some (r, [.await (clears gen t) (.remove token edition)])
    | none => some (r, [.removeDone t token edition])
  | .removeDone t token edition =>
    if r.isCurrent t.id token then
      some ((((r.interruptFailover t.id).dropTrigger t.id).dropPending t.id).noteUnregistered t.id edition, [])
    else some (r.noteUnregistered t.id edition, [])
  | .leave w => some (r.forgetWorker w, [.leaveTypes w])
  | .leaveLoop w [] keys => some (r, [.leaveRest w keys])
  | .leaveLoop w (id :: ids) keys =>
    match r.triggers id with
    | some t =>
      if t.worker = some w then some (r.dropOwned w id, [.leaveLook t w ids keys])
      else some (r, [.leaveLoop w ids keys])
    | none => some (r, [.leaveLoop w ids keys])
  | .leaveLook t w ids keys =>
    match r.providerRegistrator t.providerKey with
    | some gen => some (r, [.await (clears gen t) (.leave w ids keys)])
    | none => some (r, [.leaveLoop w ids keys])
  | .leaveCheck t gen w ids keys =>
    if (r.triggers t.id).isSome then some (r, [.leaveLoop w ids keys, .reconcile t gen])
    else some (r, [.leaveLoop w ids keys])
  | .leaveRest w keys => some (r.forgetPending w, [.leaveKeys w keys])
  | .leaveKeys _ [] => some (r, [])
  | .reject id reporter =>
    match r.triggers id with
    | none => some (r, [])
    | some failed =>
      let r' := if r.isRemoving id then r else r.interruptFailover id
      some ((r'.dropTrigger id).setPending failed, [.rejectLook id failed.providerKey reporter])
  | .rejectLook id key reporter =>
    match r.types key with
    | some provider =>
      if provider.worker ≠ some reporter then some (r, [.claim id key provider.gen]) else some (r, [])
    | none => some (r, [])
  | .reconcile stale touched =>
    match r.desired stale.providerKey stale.id with
    | some (current, gen) =>
      if gen = touched then some (r, [.await (sets touched current) (.reconcile stale (some current))])
      else some (r, [.await (clears touched stale) (.reconcile stale none)])
    | none => some (r, [.await (clears touched stale) (.reconcile stale none)])
  | _ => none

/-- What a task does with the answer of its provider. -/
def answer (r : Registry) (call : Call) (answer : Answer) : After → Registry × List Task
  | .register =>
    match answer with
    | .ok => (r.publish call.trigger, [])
    | .rejected => (r, [])
    | .unavailable => (r.park call.trigger, [])
  | .detach t => (r, [.resolveHome t true])
  | .activate token =>
    let t := call.trigger
    let ours := r.isCurrent t.id token && (r.triggers t.id).isNone && (r.pending t.id).isNone
    let r := if r.isCurrent t.id token then r.interruptFailover t.id else r
    match ours, answer with
    | true, .ok => (r.setTrigger t, [])
    | true, _ => (r.setPending t, [.reconcile t call.gen])
    | false, _ => (r, [.reconcile t call.gen])
  | .replay => (r, [])
  | .rehomeDetach target token gen =>
    match answer with
    | .ok => (r, [.rehomeCurrent call.trigger target token gen call.gen])
    | _ => (if r.isCurrent call.trigger.id token then r.interruptFailover call.trigger.id else r,
        [.reconcile target gen, .reconcile call.trigger call.gen])
  | .rehome source token old =>
    let target := call.trigger
    if r.isCurrent target.id token then
      let r := r.interruptFailover target.id
      match answer with
      | .ok => (r.setTrigger target, [])
      | _ => ((r.dropTrigger target.id).setPending target, [.reconcile target call.gen])
    else (r, .reconcile target call.gen :: (old.map fun old => Task.reconcile source old).toList)
  | .failOver token =>
    let moving := call.trigger
    if r.isCurrent moving.id token then
      let r := r.interruptFailover moving.id
      match answer with
      | .ok => (r.setTrigger moving, if moving.isOnFallback then [.claimBack moving.homeKey] else [])
      | _ => ((r.dropTrigger moving.id).setPending moving, [.reconcile moving call.gen])
    else (r, [.reconcile moving call.gen])
  | .remove token edition =>
    let t := call.trigger
    match answer with
    | .ok =>
      if r.isCurrent t.id token then
        ((((r.interruptFailover t.id).dropTrigger t.id).dropPending t.id).noteUnregistered t.id edition, [])
      else (r.noteUnregistered t.id edition, [.reconcile t call.gen])
    | _ => r.recoverRemoval t.id token call.gen
  | .leave w ids keys => (r, [.leaveCheck call.trigger call.gen w ids keys])
  | .reconcile stale before =>
    if answer ≠ .ok then (r, []) else
    match before with
    | some current =>
      if r.desired stale.providerKey stale.id = some (current, call.gen) then (r, [])
      else (r, [.reconcile stale call.gen])
    | none =>
      match r.desired stale.providerKey stale.id with
      | some (_, gen) => (r, [.reconcile stale gen])
      | none => (r, [])

/-- What a task does that is dropped while it waits. Those with no guard do nothing. -/
def abandon (r : Registry) (call : Call) : After → Registry × List Task
  | .activate token => (r.recoverActivation call.trigger.id token false, [.reconcile call.trigger call.gen])
  | .failOver token => (r.recoverActivation call.trigger.id token false, [.reconcile call.trigger call.gen])
  | .rehomeDetach target token gen =>
    (r.recoverActivation target.id token true, [.reconcile target gen, .reconcile call.trigger call.gen])
  | .rehome source token old =>
    (r.recoverActivation call.trigger.id token old.isSome,
      .reconcile call.trigger call.gen :: (old.map fun old => Task.reconcile source old).toList)
  | .remove token _ => r.recoverRemoval call.trigger.id token call.gen
  | _ => (r, [])

end Registry

/-- The copies that a task makes of a map, in any order: every entry that the filter keeps. -/
inductive Snapshot (r : Registry) : Task → List Task → Prop where
  | matching (key : TypeKey) (ts : List Trigger)
      (h : ∀ t, t ∈ ts ↔ r.triggers t.id = some t ∧ t.providerKey = key ∧ r.failing t.id = none) :
      Snapshot r (.matching key) [.replayAll key ts]
  | drain (key : TypeKey) (gen : Nat) (ids : List String)
      (h : ∀ id, id ∈ ids ↔ ∃ t, r.pending id = some t ∧ t.triggerType = key.2 ∧
        r.resolveProviderKey t = some key) :
      Snapshot r (.drain key gen) (ids.map fun id => .claim id key gen)
  | scan (key : TypeKey) (gen : Nat) (ids : List String)
      (h : ∀ id, id ∈ ids ↔ ∃ t, r.triggers id = some t ∧ t.triggerType = key.2 ∧
        t.homeNamespace = key.1 ∧ t.isOnFallback = true ∧ r.failing id = none) :
      Snapshot r (.scan key gen) (ids.map fun id => .rehome id key gen)
  | leaveTypes (w : Worker) (keys : List TypeKey)
      (h : ∀ key, key ∈ keys ↔ ∃ p, r.types key = some p ∧ p.worker = some w) :
      Snapshot r (.leaveTypes w) [.leaveIds w keys]
  | leaveIds (w : Worker) (keys : List TypeKey) (ids : List String)
      (h : ∀ id, id ∈ ids ↔ ∃ t, r.triggers id = some t ∧ t.worker = some w) :
      Snapshot r (.leaveIds w keys) [.leaveLoop w ids keys]

/-- `take_trigger_type_if_provider`. -/
inductive Takes (r : Registry) (key : TypeKey) (w : Worker) : Registry → List Task → Prop where
  | other (h : ∀ p, r.types key = some p → p.worker ≠ some w) : Takes r key w r []
  | own {p : Provider} (orphans : List Trigger) (hp : r.types key = some p) (hw : p.worker = some w)
      (h : ∀ t, t ∈ orphans ↔ r.triggers t.id = some t ∧ t.providerKey = key ∧ r.isRemoving t.id = false)
      (hnodup : (orphans.map Trigger.id).Nodup) :
      Takes r key w
        (Registry.claimOrphans { r with types := Function.update r.types key none } orphans).1
        (Registry.claimOrphans { r with types := Function.update r.types key none } orphans).2

inductive Exec : Registry → Task → Act → Registry → List Task → Prop where
  | go {r r' : Registry} {t : Task} {news : List Task} (h : r.go t = some (r', news)) :
      Exec r t .go r' news
  | snapshot {r : Registry} {t : Task} {news : List Task} (h : Snapshot r t news) : Exec r t .go r news
  | takeType {r r' : Registry} {key : TypeKey} {w : Worker} {news : List Task}
      (h : Takes r key w r' news) : Exec r (.takeType key w) .go r' news
  | leaveKeys {r r' : Registry} {key : TypeKey} {keys : List TypeKey} {w : Worker} {news : List Task}
      (h : Takes r key w r' news) :
      Exec r (.leaveKeys w (key :: keys)) .go r' (news ++ [.leaveKeys w keys])
  | taken {r : Registry} {call : Call} {after : After} (h : call.taken = false) :
      Exec r (.await call after) .taken
        (r.take call.gen call.trigger.id (if call.clears then none else some call.trigger))
        [.await { call with taken := true } after]
  | answer {r : Registry} {call : Call} {after : After} (a : Answer) (h : a = .ok → call.taken = true) :
      Exec r (.await call after) (.answer a) (r.answer call a after).1 (r.answer call a after).2
  /-- A repair may find the binding replaced by an equal one, and goes round again. -/
  | recheck {r : Registry} {call : Call} {stale : Trigger} {before : Option Trigger} (h : call.taken = true) :
      Exec r (.await call (.reconcile stale before)) .recheck r [.reconcile stale call.gen]
  | cancel {r : Registry} {call : Call} {after : After} (h : ∀ stale before, after ≠ .reconcile stale before) :
      Exec r (.await call after) .cancel (r.abandon call after).1 (r.abandon call after).2
  | dropped {r : Registry} {t : Task} (h : t.isDroppable = true) : Exec r t .cancel r []

/-- The registry with any number of operations on it. -/
def pool : Pool Registry Task Act where
  Start := fun _ t => t.isStart = true
  Exec := Exec

end Iii.Bindings
