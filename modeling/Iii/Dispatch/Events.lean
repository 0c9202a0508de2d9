import Iii.Dispatch.Order

/-! From an event to its observers (`observer/dispatch.rs`).

A call that `begin` tracks is completed or dropped. A completed one waits for an evaluator if there is room for it,
and the evaluator asks the `on` and the filter of each observer of the set that `begin` captured. A report names the
observers that matched. Either way an observer is activated, or has a drop counted, by the steps of the one observer;
what becomes of each event for each observer is written down in `log`. -/
namespace Iii.Dispatch
open Lib

inductive On where
  | success | error | complete
  | unknown (on : String)
deriving DecidableEq

def accepts : On → Bool → Bool
  | .success, success => success
  | .error, success => !success
  | .complete, _ => true
  | .unknown _, _ => false

/-- What does not change of an observer; `D` are the documents that the filter reads. -/
structure Observer (D : Type) where
  id : String
  policy : Policy
  on : On
  filter : D → Bool

/-- The active observers of a function, by their references. -/
structure ActiveSet (ι : Type) where
  observers : List ι
  nodup : observers.Nodup

/-- An event for an observer: a call with an observer of its set, or a report's item with an id it matched. -/
inductive Tag (ι : Type) where
  | call (n : Nat) (observer : ι)
  | item (n : Nat) (id : String)
deriving DecidableEq

inductive Fate (ι : Type) where
  /-- `on` or the filter did not match. -/
  | unmatched
  | outcome (observer : ι) (outcome : Outcome)
  /-- Counted for the function, not for an observer. -/
  | functionDrop (reason : Reason)
deriving DecidableEq

/-- The calls and the items are numbered in the order they begin. `asked` and `log` are history. -/
structure Engine (ι : Type) where
  observer : ι → Obs
  queuedBytes : Nat
  evaluatorBytes : Nat
  begun : Nat
  asked : List (Tag ι)
  log : List (Option (Tag ι) × Fate ι)

def Engine.new {ι : Type} (evaluatorBytes : Nat) : Engine ι where
  observer := fun _ => .new
  queuedBytes := 0
  evaluatorBytes := evaluatorBytes
  begun := 0
  asked := []
  log := []

inductive Work (ι D : Type) where
  /-- A task of one observer, with the event that it is about. -/
  | observer (p : ι) (tag : Option (Tag ι)) (t : Task)
  | begin (set : ActiveSet ι)
  /-- An `ObservedCall`. -/
  | call (n : Nat) (observers : List ι) (admitted : Bool)
  | enqueue (n : Nat) (observers : List ι) (success : Bool) (doc : D) (bytes : Nat)
  /-- Its bytes are reserved. -/
  | send (n : Nat) (observers : List ι) (success : Bool) (doc : D) (bytes : Nat)
  | queued (n : Nat) (observers : List ι) (success : Bool) (doc : D) (bytes : Nat)
  | evaluate (n : Nat) (observers : List ι) (success : Bool) (doc : D)
  /-- The loop of `drop_event` over the observers of a set. -/
  | dropAll (n : Nat) (observers : List ι) (reason : Reason)
  /-- An item of a report: its matched ids, and whether it was a success, if its status is known. -/
  | report (matched : List String) (status : Option Bool)
  | matched (n : Nat) (ids : List String) (auto success : Bool)
  | dropMatched (n : Nat) (ids : List String) (reason : Reason)

/-- What the code finds at a point. -/
inductive Find (ι D : Type) where
  | go
  | task (a : Act)
  /-- Whether the evaluator's channel has capacity. -/
  | capacity (capacity : Bool)
  | cancelled
  | completed (capacity success : Bool) (doc : D) (bytes : Nat)
  | noEvaluators
  | full
  | closed
  /-- Whether the reporter owns the function, and whether that is an auto function. -/
  | reporter (owner auto : Bool)
  /-- The observer of the function with the id. -/
  | found (p : Option ι)

/-- The ids, each where it is first. -/
def distinct (seen : List String) : List String → List String
  | [] => []
  | id :: ids => if id ∈ seen then distinct seen ids else id :: distinct (id :: seen) ids

/-- A task on its way to an outcome for its event. -/
def Task.asks : Task → Bool
  | .enter .event | .depth .event | .expiry .event | .takeFire .event | .flow .event _ | .giveBack _ | .drop _ => true
  | _ => false

section Model
variable {ι D : Type} [DecidableEq ι] (observers : ι → Observer D)

namespace Engine

def hasRoom (s : Engine ι) (capacity : Bool) : Bool := capacity && s.queuedBytes < s.evaluatorBytes

def write (s : Engine ι) (tag : Option (Tag ι)) (fate : Fate ι) : Engine ι := { s with log := s.log ++ [(tag, fate)] }

def after (s : Engine ι) (p : ι) (tag : Option (Tag ι)) (o : Obs) (outcome : Option Outcome) : Engine ι :=
  { s with
    observer := Function.update s.observer p o
    log := s.log ++ outcome.toList.map fun outcome => (tag, .outcome p outcome) }

/-- A new number, for a call or an item with these events. -/
def ask (s : Engine ι) (tags : List (Tag ι)) : Engine ι :=
  { s with begun := s.begun + 1, asked := s.asked ++ tags }

end Engine

def work (s : Engine ι) : Work ι D → Find ι D → Option (Engine ι × List (Work ι D))
  | .observer p tag t, .task a =>
    (step (observers p).policy (s.observer p) t a).map fun next =>
      let tag := if t.asks then tag else none
      (s.after p tag next.1 next.2.2, next.2.1.map fun u => .observer p (if u.asks then tag else none) u)
  | .begin set, .capacity capacity =>
    some (s.ask (set.observers.map (.call s.begun)), [.call s.begun set.observers (s.hasRoom capacity)])
  | .call n ps _, .cancelled => some (s, [.dropAll n ps .cancelled])
  | .call n ps admitted, .completed capacity success doc bytes =>
    some (s, [if admitted && s.hasRoom capacity then .enqueue n ps success doc bytes else .dropAll n ps .overflow])
  | .enqueue n ps success doc _, .noEvaluators => some (s, [.evaluate n ps success doc])
  | .enqueue n ps success doc bytes, .go =>
    if s.evaluatorBytes < bytes then some (s, [.dropAll n ps .tooLarge])
    else if s.queuedBytes + bytes ≤ s.evaluatorBytes then
      some ({ s with queuedBytes := s.queuedBytes + bytes }, [.send n ps success doc bytes])
    else some (s, [.dropAll n ps .overflow])
  | .send n ps success doc bytes, .go => some (s, [.queued n ps success doc bytes])
  | .send n ps _ _ bytes, .full => some ({ s with queuedBytes := s.queuedBytes - bytes }, [.dropAll n ps .overflow])
  | .send n ps success doc bytes, .closed =>
    some ({ s with queuedBytes := s.queuedBytes - bytes }, [.evaluate n ps success doc])
  | .queued n ps success doc bytes, .go =>
    some ({ s with queuedBytes := s.queuedBytes - bytes }, [.evaluate n ps success doc])
  | .evaluate _ [] _ _, .go => some (s, [])
  | .evaluate n (p :: ps) success doc, .go =>
    if accepts (observers p).on success && (observers p).filter doc then
      some (s, [.observer p (some (.call n p)) (.enter .event), .evaluate n ps success doc])
    else some (s.write (some (.call n p)) .unmatched, [.evaluate n ps success doc])
  | .dropAll _ [] _, .go => some (s, [])
  | .dropAll n (p :: ps) reason, .go =>
    some (s, [.observer p (some (.call n p)) (.drop reason), .dropAll n ps reason])
  | .report matched status, .reporter owner auto =>
    let ids := distinct [] matched
    let s' := s.ask (ids.map (.item s.begun))
    let dropMatched (reason : Reason) :=
      some (if ids.isEmpty then s'.write none (.functionDrop reason) else s', [.dropMatched s.begun ids reason])
    if owner then
      match status with
      | some success => some (s', [.matched s.begun ids auto success])
      | none => dropMatched .invalidReport
    else dropMatched .reporterNotOwner
  | .matched _ [] _ _, .go => some (s, [])
  | .matched n (id :: ids) auto success, .found none =>
    some (s.write (some (.item n id)) (.functionDrop .inactive), [.matched n ids auto success])
  | .matched n (id :: ids) auto success, .found (some p) =>
    if (observers p).id ≠ id then none
    else if auto && !accepts (observers p).on success then
      some (s.write (some (.item n id)) .unmatched, [.matched n ids auto success])
    else some (s, [.observer p (some (.item n id)) (.enter .event), .matched n ids auto success])
  | .dropMatched _ [] _, .go => some (s, [])
  | .dropMatched n (id :: ids) reason, .found none =>
    some (s.write (some (.item n id)) (.functionDrop reason), [.dropMatched n ids reason])
  | .dropMatched n (id :: ids) reason, .found (some p) =>
    if (observers p).id ≠ id then none
    else some (s, [.observer p (some (.item n id)) (.drop reason), .dropMatched n ids reason])
  | _, _ => none

def Work.isStart : Work ι D → Bool
  | .observer _ none t => t.isStart
  | .begin _ | .report .. => true
  | _ => false

def events : Pool (Engine ι) (Work ι D) (Find ι D) where
  Start := fun _ t => t.isStart = true
  Exec := fun s t a s' news => work observers s t a = some (s', news)

end Model

end Iii.Dispatch
