import Iii.Lib.Pool

/-! One observer and the activations that pass through it (`observer/dispatch.rs`, `observer/lifecycle.rs`).

`activate` and `owner_call` ask the same questions in the same order: is the observer active, is the chain of
observers too deep, has it expired, has it a fire left. Then the flow section gives the activation a slot or, in
`activate`, a place in the queue. A slot that is let go of goes to the next in the queue.

A task is one of these calls, or what it left running, at one of its points; each point is one atomic step. What a
call starts goes on next to it, also where the source waits for it. The activations that were accepted are numbered
in that order. -/
namespace Iii.Dispatch
open Lib

/-- The drop counters of an observer. -/
inductive Reason where
  | inactive | loopGuard | maxFires | overflow | reporterNotOwner | cancelled | invalidReport | tooLarge
deriving DecidableEq

/-- Why an observer was disposed; `reason` are the codes of the callers outside this file. -/
inductive Code where
  | maxFires | expired
  | reason (code : String)
deriving DecidableEq

/-- `observe` refuses a `max_fires` of 0, and raises `max_in_flight` to 1. -/
structure Policy where
  maxFires : Option Nat
  expires : Bool
  maxInFlight : Nat
  maxQueue : Nat
  fires_pos : ∀ m, maxFires = some m → 0 < m
  inFlight_pos : 0 < maxInFlight

/-- `ready` stands for the facts that come and go: the observing worker is connected, the function and the target
are registered, the owner has acked. -/
structure Flags where
  ready : Bool
  failed : Option Code
  disposed : Option Code
deriving DecidableEq

inductive ObserverState where
  | waiting | active | error | disposed
deriving DecidableEq

def Flags.state (flags : Flags) : ObserverState :=
  if flags.disposed.isSome then .disposed
  else if flags.failed.isSome then .error
  else if flags.ready then .active
  else .waiting

/-- The code of the reason that `disposed` or `error` comes with. -/
def Flags.reason (flags : Flags) : Option Code := flags.disposed.or flags.failed

/-- What became of an event. -/
inductive Outcome where
  | accepted
  | dropped (reason : Reason)
deriving DecidableEq

/-- `queue` holds the numbers of the activations that wait. History: how many were accepted, which got a slot, whose
target was invoked, which were dropped with the queue, how many were not sent to the target because they were too
large, and what became of each event. -/
structure Obs where
  flags : Flags
  fires : Nat
  running : Nat
  queue : List Nat
  drops : Reason → Nat
  accepted : Nat
  started : List Nat
  invoked : List Nat
  dropped : List Nat
  unsent : Nat
  outcomes : List Outcome

def Obs.new : Obs where
  flags := { ready := false, failed := none, disposed := none }
  fires := 0
  running := 0
  queue := []
  drops := fun _ => 0
  accepted := 0
  started := []
  invoked := []
  dropped := []
  unsent := 0
  outcomes := []

/-- An event is activated, or an owner delivers one itself. -/
inductive Entry where
  | event | owner
deriving DecidableEq

inductive Task where
  | enter (entry : Entry)
  | depth (entry : Entry)
  | expiry (entry : Entry)
  | takeFire (entry : Entry)
  | flow (entry : Entry) (fired : Nat)
  | giveBack (reason : Reason)
  | drop (reason : Reason)
  /-- Accepted with fire number `fired`: the last one disposes the observer. -/
  | finish (fired : Nat)
  /-- It has a slot and goes to the runtime. -/
  | spawn (k : Nat)
  | run (k : Nat)
  | invoking
  | next
  /-- An owner's delivery that has its slot. -/
  | deliver (k : Nat)
  | delivering
  /-- `release_slot`, and the two ways on from it. -/
  | release
  | respawn (k : Nat)
  | unslot
  | ready (ready : Bool)
  | dispose (code : Code)
  | fail (code : Code)
  /-- The rest of an `update` that disposed the observer or failed it. -/
  | readReason
  | dropQueue
  | countDropped (n : Nat)
deriving DecidableEq

/-- What the code finds at a point, where it is not in the observer. -/
inductive Act where
  | go
  | tooDeep
  | expired
  /-- There is no place: the queue is full or does not take so much. -/
  | refuse (tooLarge : Bool)
  | noRuntime
  | panic
  /-- The engine does not send the activation to its target. -/
  | notSent
deriving DecidableEq

abbrev Next := Obs × List Task × Option Outcome

namespace Obs

def isActive (o : Obs) : Bool := o.flags.state = .active

def count (o : Obs) (reason : Reason) (n : Nat) : Obs :=
  { o with drops := Function.update o.drops reason (o.drops reason + n) }

/-- `drop_event` -/
def drop (o : Obs) (reason : Reason) : Next :=
  ({ o.count reason 1 with outcomes := o.outcomes ++ [.dropped reason] }, [], some (.dropped reason))

/-- An activation is accepted and has the next number. -/
def accept (o : Obs) : Obs := { o with accepted := o.accepted + 1, outcomes := o.outcomes ++ [.accepted] }

def takeSlot (o : Obs) : Obs := { o.accept with running := o.running + 1, started := o.started ++ [o.accepted] }

def takeFire (P : Policy) (o : Obs) (entry : Entry) : Next :=
  match P.maxFires with
  | some m =>
    if o.fires < m then ({ o with fires := o.fires + 1 }, [.flow entry (o.fires + 1)], none)
    else (o, [.drop .maxFires], none)
  | none => ({ o with fires := o.fires + 1 }, [.flow entry (o.fires + 1)], none)

/-- The section under the flow lock. -/
def flow (P : Policy) (o : Obs) (fired : Nat) : Entry → Act → Option Next
  | .event, act =>
    if o.running < P.maxInFlight ∧ o.queue = [] then
      some (o.takeSlot, [.spawn o.accepted, .finish fired], some .accepted)
    else
      match act with
      | .refuse tooLarge => some (o, [.giveBack (if tooLarge then .tooLarge else .overflow)], none)
      | .go =>
        if o.queue.length < P.maxQueue then
          some ({ o.accept with queue := o.queue ++ [o.accepted] }, [.finish fired], some .accepted)
        else none
      | _ => none
  | .owner, _ =>
    if P.maxInFlight ≤ o.running then some (o, [.giveBack .overflow], none)
    else some (o.takeSlot, [.deliver o.accepted, .finish fired], some .accepted)

/-- `next_queued`: the slot goes to the next activation, or is free. -/
def nextQueued (o : Obs) (on : Nat → Task) : Next :=
  match o.queue with
  | k :: rest => ({ o with queue := rest, started := o.started ++ [k] }, [on k], none)
  | [] => ({ o with running := o.running - 1 }, [], none)

/-- The section of `update` under the status lock; it goes on when the observer has become `disposed` or `error`. -/
def update (o : Obs) (flags : Flags) : Next :=
  let o' := { o with flags := flags }
  (o', if flags.state ≠ o.flags.state ∧ (flags.state = .disposed ∨ flags.state = .error) then [.readReason] else [],
    none)

def dispose (o : Obs) (code : Code) : Next :=
  o.update (if o.flags.disposed = none then { o.flags with disposed := some code } else o.flags)

def fail (o : Obs) (code : Code) : Next :=
  o.update (if o.flags.failed = none then { o.flags with failed := some code } else o.flags)

end Obs

def step (P : Policy) (o : Obs) : Task → Act → Option Next
  | .enter entry, .go =>
    if o.isActive then some (o, [.depth entry], none)
    else
      match entry with
      | .event => some (o, [.drop .inactive], none)
      | .owner => some (o, [], none)
  | .depth entry, .go => some (o, [.expiry entry], none)
  | .depth _, .tooDeep => some (o, [.drop .loopGuard], none)
  | .expiry entry, .go => some (o, [.takeFire entry], none)
  | .expiry _, .expired => if P.expires then some (o, [.dispose .expired, .drop .inactive], none) else none
  | .takeFire entry, .go => some (o.takeFire P entry)
  | .flow entry fired, act => o.flow P fired entry act
  | .giveBack reason, .go => some ({ o with fires := o.fires - 1 }, [.drop reason], none)
  | .drop reason, .go => some (o.drop reason)
  | .finish fired, .go => if P.maxFires = some fired then some (o.dispose .maxFires) else some (o, [], none)
  | .spawn k, .go => some (o, [.run k], none)
  | .spawn _, .noRuntime => some (o, [.release], none)
  | .run k, .go => some ({ o with invoked := o.invoked ++ [k] }, [.invoking], none)
  | .invoking, .go => some (o, [.next], none)
  | .invoking, .panic => some (o, [.release], none)
  | .invoking, .notSent => some ({ o.count .tooLarge 1 with unsent := o.unsent + 1 }, [.next], none)
  | .next, .go => some (o.nextQueued .run)
  | .deliver k, .go => some ({ o with invoked := o.invoked ++ [k] }, [.delivering], none)
  | .delivering, .go => some (o, [.release], none)
  | .delivering, .notSent => some ({ o.count .tooLarge 1 with unsent := o.unsent + 1 }, [.release], none)
  | .release, .go => some (o.nextQueued .respawn)
  | .respawn k, .go => some (o, [.run k], none)
  | .respawn _, .noRuntime => some (o, [.unslot], none)
  | .unslot, .go => some ({ o with running := o.running - 1 }, [], none)
  | .ready ready, .go => some (o.update { o.flags with ready := ready })
  | .dispose code, .go => some (o.dispose code)
  | .fail code, .go => some (o.fail code)
  | .readReason, .go => some (o, if o.flags.reason = some .maxFires then [] else [.dropQueue], none)
  | .dropQueue, .go => some ({ o with queue := [], dropped := o.dropped ++ o.queue }, [.countDropped o.queue.length], none)
  | .countDropped n, .go => some (o.count .inactive n, [], none)
  | _, _ => none

/-- What the rest of the engine starts; only `activate` and `owner_call` dispose for `MAX_FIRES`. -/
def Task.isStart : Task → Bool
  | .enter _ | .drop _ | .ready _ | .fail _ => true
  | .dispose code => code ≠ .maxFires
  | _ => false

def pool (P : Policy) : Pool Obs Task Act where
  Start := fun _ t => t.isStart = true
  Exec := fun o t a o' news => ∃ outcome, step P o t a = some (o', news, outcome)

/-- A schedule from the new observer; `allowed` may refuse a step. -/
def play (P : Policy) (allowed : Obs → Task → Act → List Task → Bool) (turns : List (Pool.Turn Task Act)) :
    Option (Obs × List Task) :=
  Pool.play (fun _ => Task.isStart) (fun o t a => (step P o t a).map fun next => (next.1, next.2.1)) allowed .new [] turns

theorem play_guarded (P : Policy) (allowed : Obs → Task → Act → List Task → Bool) (turns : List (Pool.Turn Task Act))
    {C : Obs → Task → Act → Multiset Task → Prop} (hC : ∀ o t a (ts : List Task), allowed o t a ts = true → C o t a ↑ts)
    {c : Obs × List Task} (h : play P allowed turns = some c) :
    ((pool P).guarded C .new).Reachable ⟨c.1, ↑c.2⟩ := by
  refine Pool.play_guarded _ _ _ _ _ (fun _ _ ht => ht) (fun o t a s' news hstep => ?_) hC h
  obtain ⟨next, hnext, heq⟩ := Option.map_eq_some_iff.mp hstep
  cases heq
  exact ⟨next.2.2, hnext⟩

theorem play_reachable (P : Policy) (turns : List (Pool.Turn Task Act)) {c : Obs × List Task}
    (h : play P (fun _ _ _ _ => true) turns = some c) : ((pool P).system .new).Reachable ⟨c.1, ↑c.2⟩ :=
  Pool.guarded_reachable (C := fun _ _ _ _ => True) (play_guarded P _ turns (fun _ _ _ _ _ => trivial) h)

@[simp] theorem Obs.nextQueued_flags (o : Obs) (on : Nat → Task) : (o.nextQueued on).1.flags = o.flags := by
  unfold nextQueued
  split <;> rfl

@[simp] theorem Obs.nextQueued_fires (o : Obs) (on : Nat → Task) : (o.nextQueued on).1.fires = o.fires := by
  unfold nextQueued
  split <;> rfl

@[simp] theorem Obs.nextQueued_accepted (o : Obs) (on : Nat → Task) : (o.nextQueued on).1.accepted = o.accepted := by
  unfold nextQueued
  split <;> rfl

/-! ### What a step does -/

/-- The observer stays as it is. -/
inductive Passes (P : Policy) (o : Obs) : Task → List Task → Prop where
  | goesOn (entry : Entry) (h : o.isActive = true) : Passes P o (.enter entry) [.depth entry]
  | inactive : Passes P o (.enter .event) [.drop .inactive]
  | rejected : Passes P o (.enter .owner) []
  | shallow (entry : Entry) : Passes P o (.depth entry) [.expiry entry]
  | loopGuard (entry : Entry) : Passes P o (.depth entry) [.drop .loopGuard]
  | inTime (entry : Entry) : Passes P o (.expiry entry) [.takeFire entry]
  | expired (entry : Entry) : Passes P o (.expiry entry) [.dispose .expired, .drop .inactive]
  | spent (entry : Entry) (m : Nat) (hm : P.maxFires = some m) (h : m ≤ o.fires) :
      Passes P o (.takeFire entry) [.drop .maxFires]
  | refused (entry : Entry) (fired : Nat) (reason : Reason) : Passes P o (.flow entry fired) [.giveBack reason]
  | goOn (fired : Nat) (h : P.maxFires ≠ some fired) : Passes P o (.finish fired) []
  | spawned (k : Nat) : Passes P o (.spawn k) [.run k]
  | unspawned (k : Nat) : Passes P o (.spawn k) [.release]
  | answered : Passes P o .invoking [.next]
  | panicked : Passes P o .invoking [.release]
  | delivered : Passes P o .delivering [.release]
  | respawned (k : Nat) : Passes P o (.respawn k) [.run k]
  | unrespawned (k : Nat) : Passes P o (.respawn k) [.unslot]
  | keeps (h : o.flags.reason = some .maxFires) : Passes P o .readReason []
  | drops (h : o.flags.reason ≠ some .maxFires) : Passes P o .readReason [.dropQueue]

/-- An `update` with the flags it leaves. -/
inductive Updates (P : Policy) (o : Obs) : Task → Flags → Prop where
  | ready (ready : Bool) : Updates P o (.ready ready) { o.flags with ready := ready }
  | dispose (code : Code) :
      Updates P o (.dispose code) (if o.flags.disposed = none then { o.flags with disposed := some code } else o.flags)
  | finish (m : Nat) (h : P.maxFires = some m) :
      Updates P o (.finish m) (if o.flags.disposed = none then { o.flags with disposed := some .maxFires } else o.flags)
  | fail (code : Code) :
      Updates P o (.fail code) (if o.flags.failed = none then { o.flags with failed := some code } else o.flags)

inductive Moves (P : Policy) (o : Obs) : Task → Next → Prop where
  | pass {t : Task} {news : List Task} (h : Passes P o t news) : Moves P o t (o, news, none)
  | take (entry : Entry) (h : ∀ m, P.maxFires = some m → o.fires < m) :
      Moves P o (.takeFire entry) ({ o with fires := o.fires + 1 }, [.flow entry (o.fires + 1)], none)
  | slot (fired : Nat) (h : o.running < P.maxInFlight) (hqueue : o.queue = []) :
      Moves P o (.flow .event fired) (o.takeSlot, [.spawn o.accepted, .finish fired], some .accepted)
  | ownSlot (fired : Nat) (h : o.running < P.maxInFlight) :
      Moves P o (.flow .owner fired) (o.takeSlot, [.deliver o.accepted, .finish fired], some .accepted)
  | enqueue (fired : Nat) (h : ¬(o.running < P.maxInFlight ∧ o.queue = [])) (hroom : o.queue.length < P.maxQueue) :
      Moves P o (.flow .event fired)
        ({ o.accept with queue := o.queue ++ [o.accepted] }, [.finish fired], some .accepted)
  | giveBack (reason : Reason) : Moves P o (.giveBack reason) ({ o with fires := o.fires - 1 }, [.drop reason], none)
  | drop (reason : Reason) : Moves P o (.drop reason) (o.drop reason)
  | invoke (k : Nat) : Moves P o (.run k) ({ o with invoked := o.invoked ++ [k] }, [.invoking], none)
  | deliver (k : Nat) : Moves P o (.deliver k) ({ o with invoked := o.invoked ++ [k] }, [.delivering], none)
  | unsent : Moves P o .invoking ({ o.count .tooLarge 1 with unsent := o.unsent + 1 }, [.next], none)
  | undelivered : Moves P o .delivering ({ o.count .tooLarge 1 with unsent := o.unsent + 1 }, [.release], none)
  | next : Moves P o .next (o.nextQueued .run)
  | release : Moves P o .release (o.nextQueued .respawn)
  | unslot : Moves P o .unslot ({ o with running := o.running - 1 }, [], none)
  | update {t : Task} {flags : Flags} (h : Updates P o t flags) : Moves P o t (o.update flags)
  | dropQueue :
      Moves P o .dropQueue ({ o with queue := [], dropped := o.dropped ++ o.queue }, [.countDropped o.queue.length], none)
  | countDropped (n : Nat) : Moves P o (.countDropped n) (o.count .inactive n, [], none)

/-- Nothing takes a failure or a disposal back. -/
theorem Updates.mono {P : Policy} {o : Obs} {t : Task} {flags : Flags} (h : Updates P o t flags) :
    (o.flags.failed.isSome → flags.failed.isSome) ∧ (o.flags.disposed.isSome → flags.disposed.isSome) := by
  cases h with
  | ready => exact ⟨id, id⟩
  | fail | dispose | finish =>
    split
    · rename_i hnone
      simp [hnone]
    · exact ⟨id, id⟩

theorem flow_moves {P : Policy} {o : Obs} {entry : Entry} {fired : Nat} {a : Act} {next : Next}
    (h : o.flow P fired entry a = some next) : Moves P o (.flow entry fired) next := by
  cases entry with
  | event =>
    by_cases hroom : o.running < P.maxInFlight ∧ o.queue = []
    · simp only [Obs.flow, if_pos hroom, Option.some.injEq] at h
      exact h ▸ .slot fired hroom.1 hroom.2
    · simp only [Obs.flow, if_neg hroom] at h
      split at h
      · exact Option.some.inj h ▸ .pass (.refused ..)
      · obtain ⟨hqueue, h⟩ := Option.ite_none_right_eq_some.mp h
        exact Option.some.inj h ▸ .enqueue fired hroom hqueue
      · cases h
  | owner =>
    simp only [Obs.flow] at h
    split at h
    · exact Option.some.inj h ▸ .pass (.refused ..)
    · rename_i hroom
      exact Option.some.inj h ▸ .ownSlot fired (Nat.lt_of_not_le hroom)

theorem step_moves {P : Policy} {o : Obs} {t : Task} {a : Act} {next : Next} (h : step P o t a = some next) :
    Moves P o t next := by
  unfold step at h
  split at h
  · split at h
    · rename_i hactive
      cases h
      exact .pass (.goesOn _ hactive)
    · split at h <;> cases h
      · exact .pass .inactive
      · exact .pass .rejected
  · cases h; exact .pass (.shallow _)
  · cases h; exact .pass (.loopGuard _)
  · cases h; exact .pass (.inTime _)
  · split at h <;> cases h
    exact .pass (.expired _)
  · rename_i entry
    cases h
    unfold Obs.takeFire
    cases hmax : P.maxFires with
    | none => exact .take entry (by simp [hmax])
    | some m =>
      dsimp only
      split
      · exact .take entry (by simpa [hmax])
      · exact .pass (.spent entry m hmax (by omega))
  · exact flow_moves h
  · cases h; exact .giveBack _
  · cases h; exact .drop _
  · split at h
    · rename_i hlast
      cases h
      exact .update (.finish _ hlast)
    · rename_i hlast
      cases h
      exact .pass (.goOn _ hlast)
  · cases h; exact .pass (.spawned _)
  · cases h; exact .pass (.unspawned _)
  · cases h; exact .invoke _
  · cases h; exact .pass .answered
  · cases h; exact .pass .panicked
  · cases h; exact .unsent
  · cases h; exact .next
  · cases h; exact .deliver _
  · cases h; exact .pass .delivered
  · cases h; exact .undelivered
  · cases h; exact .release
  · cases h; exact .pass (.respawned _)
  · cases h; exact .pass (.unrespawned _)
  · cases h; exact .unslot
  · cases h; exact .update (.ready _)
  · cases h; exact .update (.dispose _)
  · cases h; exact .update (.fail _)
  · cases h
    split
    · rename_i hkeeps
      exact .pass (.keeps hkeeps)
    · rename_i hdrops
      exact .pass (.drops hdrops)
  · cases h; exact .dropQueue
  · cases h; exact .countDropped _
  · cases h

end Iii.Dispatch
