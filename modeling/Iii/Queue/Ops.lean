import Iii.Json.Text
import Iii.Queue.Kv

/-! The operations of `BuiltinQueue` (`builtins/queue.rs`).

A queue is four structures under keys made of its name (waiting, active and
dead-letter lists, the delayed set) and one record for each job that is not done.
Waiting ids enter at the front and leave at the back. An operation here is the whole
of its store writes, on a store of all queues. -/
namespace Iii.Queue
open Lib

/-! ### Jobs -/

structure Job where
  id : String
  queue : String
  data : Value
  attemptsMade : Nat
  maxAttempts : Nat
  backoffDelayMs : Nat
  createdAt : Nat
  processAt : Option Nat
  groupId : Option String
  traceparent : Option String
  baggage : Option String
  functionId : Option String
  messageId : Option String
  namespace_ : Option String
  deriving DecidableEq

/-- `Job::new_with_group`: the id is a fresh UUID and `createdAt` the clock. -/
def Job.newWithGroup (id : String) (createdAt : Nat) (queue : String) (data : Value)
    (maxAttempts backoffDelayMs : Nat) (groupId traceparent baggage : Option String) : Job :=
  ⟨id, queue, data, 0, maxAttempts, backoffDelayMs, createdAt, none, groupId, traceparent, baggage, none,
    none, none⟩

/-- `attempts_made += 1` on a `u32`. -/
def Job.incrementAttempts (job : Job) : Job :=
  { job with attemptsMade := (job.attemptsMade + 1) % 2 ^ 32 }

def Job.isExhausted (job : Job) : Bool := job.maxAttempts ≤ job.attemptsMade

/-- Saturating in `u64`. -/
def Job.calculateBackoff (job : Job) : Nat :=
  min (job.backoffDelayMs * min (2 ^ (job.attemptsMade - 1)) (2 ^ 64 - 1)) (2 ^ 64 - 1)

structure QueueConfig where
  maxAttempts : Nat
  backoffMs : Nat

structure SubscriptionConfig where
  maxAttempts : Option Nat
  backoffMs : Option Nat

/-- `subscription_configs`, by queue. -/
abbrev Configs : Type := List (String × SubscriptionConfig)

def applySubscriptionOverrides (configs : Configs) (job : Job) : Job :=
  match Assoc.get? configs job.queue with
  | some cfg =>
    { job with
      maxAttempts := cfg.maxAttempts.getD job.maxAttempts
      backoffDelayMs := cfg.backoffMs.getD job.backoffDelayMs }
  | none => job

/-- `now + delay` on `u64`, which wraps in a release build. -/
def addMs (now delay : Nat) : Nat := (now + delay) % 2 ^ 64

/-- `x as i64` of a `u64`. -/
def asScore (x : Nat) : Int := if x < 2 ^ 63 then x else (x : Int) - 2 ^ 64

/-! ### What the store holds -/

/-- A job record: one that `from_value::<Job>` reads, or any other value. -/
inductive Record where
  | job (job : Job)
  | other (value : Value)

/-- `serde_json::from_value(..).ok()`. -/
def Record.read : Record → Option Job
  | .job j => some j
  | .other _ => none

/-- An item of a dead-letter list: the text written of a failed job, or a text that is
not one. Of the latter, `jobId` is what stands in it at `job.id`. -/
inductive Payload where
  | failed (job : Job) (error : String) (failedAt : Nat)
  | other (text : String) (jobId : Option String)
  deriving DecidableEq

/-- `serde_json::from_str` gives up at 128 nested containers. -/
def recursionLimit : Nat := 128

/-- The `job` a text is read back to. It is written as an object with the job, itself an
object, inside, so its data stands two containers deep. -/
def Payload.parse : Payload → Option Job
  | .failed job _ _ => if job.data.depth + 2 < recursionLimit then some job else none
  | .other _ _ => none

/-- The id the search by message id compares. -/
def Payload.jobId : Payload → Option String
  | .failed job _ _ => if job.data.depth + 2 < recursionLimit then some job.id else none
  | .other _ jobId => jobId

/-- The lists are one map in the source; here the dead-letter lists, whose keys end
differently from all others, are apart from the lists of ids. -/
structure Store where
  lists : Lists String
  dlqs : Lists Payload
  sortedSets : SortedSets
  jobs : List (String × Record)

def Store.empty : Store := ⟨[], [], [], []⟩

def jobKey (queue jobId : String) : String := "queue:" ++ queue ++ ":jobs:" ++ jobId
def waitingKey (queue : String) : String := "queue:" ++ queue ++ ":waiting"
def activeKey (queue : String) : String := "queue:" ++ queue ++ ":active"
def delayedKey (queue : String) : String := "queue:" ++ queue ++ ":delayed"
def dlqKey (queue : String) : String := "queue:" ++ queue ++ ":dlq"

namespace Store

def onLists (f : Lists String → Lists String) (s : Store) : Store := { s with lists := f s.lists }
def onDlqs (f : Lists Payload → Lists Payload) (s : Store) : Store := { s with dlqs := f s.dlqs }
def onSets (f : SortedSets → SortedSets) (s : Store) : Store := { s with sortedSets := f s.sortedSets }

def setJob (key : String) (record : Record) (s : Store) : Store :=
  { s with jobs := Assoc.insert s.jobs key record }

def getJob (key : String) (s : Store) : Option Record := Assoc.get? s.jobs key

def deleteJob (key : String) (s : Store) : Store := { s with jobs := Assoc.erase s.jobs key }

end Store
open Store

/-! ### Pushing -/

def pushJob (job : Job) (s : Store) : Store :=
  (s.setJob (jobKey job.queue job.id) (.job job)).onLists (lpush (waitingKey job.queue) job.id)

def push (cfg : QueueConfig) (id : String) (now : Nat) (queue : String) (data : Value)
    (traceparent baggage : Option String) : Store → Store :=
  pushJob (.newWithGroup id now queue data cfg.maxAttempts cfg.backoffMs none traceparent baggage)

def pushFifo (cfg : QueueConfig) (id : String) (now : Nat) (queue : String) (data : Value) (groupId : String)
    (traceparent baggage : Option String) : Store → Store :=
  pushJob (.newWithGroup id now queue data cfg.maxAttempts cfg.backoffMs (some groupId) traceparent baggage)

def pushDelayed (cfg : QueueConfig) (id : String) (now : Nat) (queue : String) (data : Value) (delayMs : Nat)
    (traceparent baggage : Option String) (s : Store) : Store :=
  let processAt := addMs now delayMs
  let job := { Job.newWithGroup id now queue data cfg.maxAttempts cfg.backoffMs none traceparent baggage with
    processAt := some processAt }
  (s.setJob (jobKey queue id) (.job job)).onSets (zadd (delayedKey queue) (asScore processAt) id)

/-! ### Delivery -/

def pop (queue : String) (s : Store) : Option Job × Store :=
  match rpop (waitingKey queue) s.lists with
  | (none, _) => (none, s)
  | (some jobId, lists) =>
    let s := { s with lists := lpush (activeKey queue) jobId lists }
    ((s.getJob (jobKey queue jobId)).bind Record.read, s)

def ack (queue jobId : String) (s : Store) : Store :=
  (s.onLists (lrem (activeKey queue) 1 jobId)).deleteJob (jobKey queue jobId)

def moveToDlq (queue : String) (job : Job) (error : String) (now : Nat) (s : Store) : Store :=
  ((s.onLists (lrem (activeKey queue) 1 job.id)).onDlqs
    (lpush (dlqKey queue) (.failed job error now))).deleteJob (jobKey queue job.id)

def nack (configs : Configs) (now : Nat) (queue jobId error : String) (s : Store) : Store :=
  match s.getJob (jobKey queue jobId) with
  | none => s.onLists (lrem (activeKey queue) 1 jobId)
  | some (.other _) => s
  | some (.job job) =>
    let job := (applySubscriptionOverrides configs job).incrementAttempts
    if job.isExhausted then moveToDlq queue job error now s
    else
      let processAt := addMs now job.calculateBackoff
      let job := { job with processAt := some processAt }
      ((s.onLists (lrem (activeKey queue) 1 jobId)).setJob (jobKey queue jobId) (.job job)).onSets
        (zadd (delayedKey queue) (asScore processAt) jobId)

/-- What the workers do with a popped job they cannot start: no free permit, or its
group is busy. -/
def requeue (queue jobId : String) (s : Store) : Store :=
  s.onLists fun lists => lrem (activeKey queue) 1 jobId (lpush (waitingKey queue) jobId lists)

/-- One expired id: into the waiting list if it was still delayed. -/
def moveReady (queue : String) (s : Store) (jobId : String) : Store :=
  match zrem (delayedKey queue) jobId s.sortedSets with
  | (true, sets) => { s with sortedSets := sets, lists := rpush (waitingKey queue) jobId s.lists }
  | (false, sets) => { s with sortedSets := sets }

def moveDelayedToWaiting (now : Nat) (queue : String) (s : Store) : Store :=
  (zrangebyscore (delayedKey queue) 0 now s.sortedSets).foldl (moveReady queue) s

/-! ### The dead-letter list -/

/-- A job leaves the dead-letter list for the waiting list with its attempts cleared. -/
def redriveJob (queue : String) (job : Job) (s : Store) : Store :=
  (s.setJob (jobKey queue job.id) (.job { job with attemptsMade := 0 })).onLists
    (lpush (waitingKey queue) job.id)

/-- The `while let Some(item) = rpop(..)` loop; every round takes one item. -/
def redriveLoop (queue : String) : Nat → Store → Nat × Store
  | 0, s => (0, s)
  | fuel + 1, s =>
    match rpop (dlqKey queue) s.dlqs with
    | (none, _) => (0, s)
    | (some item, dlqs) =>
      match item.parse with
      | some job =>
        let (count, s) := redriveLoop queue fuel (redriveJob queue job { s with dlqs })
        (count + 1, s)
      | none => redriveLoop queue fuel { s with dlqs }

def dlqRedrive (queue : String) (s : Store) : Nat × Store :=
  redriveLoop queue (items s.dlqs (dlqKey queue)).length s

def dlqFindAndRemove (queue messageId : String) (s : Store) : Option Job × Store :=
  match lremoveFirstBy (dlqKey queue) (fun item => item.jobId = some messageId) s.dlqs with
  | (some item, dlqs) => (item.parse, { s with dlqs })
  | (none, _) => (none, s)

def dlqRedriveMessage (queue messageId : String) (s : Store) : Bool × Store :=
  match dlqFindAndRemove queue messageId s with
  | (some job, s) => (true, redriveJob queue job s)
  | (none, s) => (false, s)

def dlqDiscardMessage (queue messageId : String) (s : Store) : Bool × Store :=
  match dlqFindAndRemove queue messageId s with
  | (some job, s) => (true, s.deleteJob (jobKey queue job.id))
  | (none, s) => (false, s)

end Iii.Queue
