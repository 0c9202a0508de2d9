import Mathlib.Data.List.Infix
import Iii.Lib.System
import Iii.Queue.Lanes

/-! The tasks of the queue: producers, the workers of the three modes, the handlers they
spawn, the saving of the store, and restarts (`builtins/queue.rs`).

Every store operation is an await point, so a task here is where it stands between
two of them, with the ids it holds in local variables. An unsubscribe drops the worker
task wherever it stands; the handlers a worker spawned run on. A restart drops every
task and goes on with what was saved. -/
namespace Iii.Queue.Tasks
open Lib Store

/-! ### Handling one job -/

/-- Where the handling of a delivered job stands: the handler itself, then the writes of
`ack`, of `nack`, or of `move_to_dlq`, or the sleep before an inline retry. -/
inductive Stage where
  | handling (job : Job)
  | ackRem (jobId : String)
  | ackDelete (jobId : String)
  | nackRead (jobId error : String)
  | nackRem (jobId : String) (job : Job) (processAt : Nat)
  | nackSet (jobId : String) (job : Job) (processAt : Nat)
  | nackAdd (jobId : String) (processAt : Nat)
  | buryRem (job : Job) (error : String)
  | buryPush (job : Job) (error : String)
  | buryDelete (jobId : String)
  | sleeping (job : Job)
  | done

/-- The job that is in no list but the active one. -/
def Stage.hand : Stage → List String
  | .handling job | .buryRem job _ | .buryPush job _ | .sleeping job => [job.id]
  | .ackRem jobId | .ackDelete jobId | .nackRead jobId _ | .nackRem jobId _ _ | .nackSet jobId _ _
  | .nackAdd jobId _ => [jobId]
  | .buryDelete _ | .done => []

/-- One step of the handling. `inline` is `process_job_with_inline_retry`, otherwise the
handler of the concurrent worker; `acked` is the job it finishes. -/
inductive Stage.Step (configs : Configs) (now : Nat) (q : String) (inline : Bool) :
    Stage → Store → Stage → Store → List String → Prop
  | ok (job : Job) (s : Store) : Step configs now q inline (.handling job) s (.ackRem job.id) s []
  | ackRem (jobId : String) (s : Store) : Step configs now q inline (.ackRem jobId) s (.ackDelete jobId)
      (s.onLists (lrem (activeKey q) 1 jobId)) []
  | ackDelete (jobId : String) (s : Store) : Step configs now q inline (.ackDelete jobId) s .done
      (s.deleteJob (jobKey q jobId)) [jobId]
  | error (job : Job) (error : String) (s : Store) (h : inline = false) :
      Step configs now q inline (.handling job) s (.nackRead job.id error) s []
  | nackMissing (jobId error : String) (s : Store) (h : s.getJob (jobKey q jobId) = none) :
      Step configs now q inline (.nackRead jobId error) s .done (s.onLists (lrem (activeKey q) 1 jobId)) []
  | nackBroken (jobId error : String) (s : Store) (value : Value)
      (h : s.getJob (jobKey q jobId) = some (.other value)) :
      Step configs now q inline (.nackRead jobId error) s .done s []
  | nackExhausted (jobId error : String) (s : Store) (job : Job)
      (h : s.getJob (jobKey q jobId) = some (.job job))
      (hexhausted : (applySubscriptionOverrides configs job).incrementAttempts.isExhausted = true) :
      Step configs now q inline (.nackRead jobId error) s
        (.buryRem (applySubscriptionOverrides configs job).incrementAttempts error) s []
  | nackRetry (jobId error : String) (s : Store) (job job' : Job)
      (h : s.getJob (jobKey q jobId) = some (.job job))
      (hjob : job' = (applySubscriptionOverrides configs job).incrementAttempts)
      (hexhausted : job'.isExhausted = false) :
      Step configs now q inline (.nackRead jobId error) s
        (.nackRem jobId job' (addMs now job'.calculateBackoff)) s []
  | nackRem (jobId : String) (job : Job) (processAt : Nat) (s : Store) :
      Step configs now q inline (.nackRem jobId job processAt) s (.nackSet jobId job processAt)
        (s.onLists (lrem (activeKey q) 1 jobId)) []
  | nackSet (jobId : String) (job : Job) (processAt : Nat) (s : Store) :
      Step configs now q inline (.nackSet jobId job processAt) s (.nackAdd jobId processAt)
        (s.setJob (jobKey q jobId) (.job { job with processAt := some processAt })) []
  | nackAdd (jobId : String) (processAt : Nat) (s : Store) :
      Step configs now q inline (.nackAdd jobId processAt) s .done
        (s.onSets (zadd (delayedKey q) (asScore processAt) jobId)) []
  | exhausted (job : Job) (error : String) (s : Store) (h : inline = true)
      (hexhausted : job.incrementAttempts.isExhausted = true) :
      Step configs now q inline (.handling job) s (.buryRem job.incrementAttempts error) s []
  | buryRem (job : Job) (error : String) (s : Store) :
      Step configs now q inline (.buryRem job error) s (.buryPush job error)
        (s.onLists (lrem (activeKey q) 1 job.id)) []
  | buryPush (job : Job) (error : String) (s : Store) :
      Step configs now q inline (.buryPush job error) s (.buryDelete job.id)
        (s.onDlqs (lpush (dlqKey q) (.failed job error now))) []
  | buryDelete (jobId : String) (s : Store) :
      Step configs now q inline (.buryDelete jobId) s .done (s.deleteJob (jobKey q jobId)) []
  | retry (job : Job) (s : Store) (h : inline = true)
      (hexhausted : job.incrementAttempts.isExhausted = false) :
      Step configs now q inline (.handling job) s (.sleeping job.incrementAttempts) s []
  | awake (job : Job) (s : Store) :
      Step configs now q inline (.sleeping job) s (.handling job) (s.setJob (jobKey q job.id) (.job job)) []

/-! ### Workers -/

inductive Mode where
  | concurrent
  | grouped
  | fifo
  deriving DecidableEq

/-- A spawned handler. The permit or the group it holds is free again when it is gone. -/
structure Handler where
  worker : Nat
  queue : String
  inline : Bool
  group : String
  stage : Stage

/-- Where a worker stands in its loop. `skipped` are the jobs of busy groups it has popped
in this pass. -/
inductive Place where
  | tick
  | moving (ready : List String)
  | moved (jobId : String) (ready : List String)
  | popping (skipped : List String)
  | popped (jobId : String) (skipped : List String)
  | reading (jobId : String) (skipped : List String)
  | deciding (job : Job) (skipped : List String)
  | putBack (jobId : String)
  | putBackRem (jobId : String)
  | returning (skipped : List String)
  | returningRem (jobId : String) (skipped : List String)
  | inline (stage : Stage)

def Place.hand : Place → List String
  | .tick | .moving _ | .putBackRem _ => []
  | .moved jobId _ | .putBack jobId => [jobId]
  | .popping skipped | .returning skipped | .returningRem _ skipped => skipped
  | .popped jobId skipped | .reading jobId skipped => jobId :: skipped
  | .deciding job skipped => job.id :: skipped
  | .inline stage => stage.hand

structure Worker where
  id : Nat
  queue : String
  mode : Mode
  concurrency : Nat
  place : Place

/-- The handlers of one worker: the permits taken, or the active groups. -/
def handlersOf (w : Nat) (handlers : List Handler) : List Handler := handlers.filter fun h => h.worker = w

def groupOf (job : Job) : String := job.groupId.getD "default"

theorem applySubscriptionOverrides_id (configs : Configs) (job : Job) :
    (applySubscriptionOverrides configs job).id = job.id := by
  unfold applySubscriptionOverrides
  split <;> rfl

/-- A spawned handler starts with the job it was given; the inline one overlays the
subscription's tuning first. -/
def spawned (configs : Configs) (w : Worker) (inline : Bool) (job : Job) : Handler :=
  ⟨w.id, w.queue, inline, groupOf job,
    .handling (if inline then applySubscriptionOverrides configs job else job)⟩

/-- One step of a worker: its next place, the store, the handlers it spawned. -/
inductive Worker.Step (configs : Configs) (now : Nat) (handlers : List Handler) (w : Worker) :
    Place → Store → Place → Store → List Handler → Prop
  | tick (s : Store) : Step configs now handlers w .tick s
      (.moving (zrangebyscore (delayedKey w.queue) 0 now s.sortedSets)) s []
  | moveEnd (s : Store) : Step configs now handlers w (.moving []) s (.popping []) s []
  | moveRem (jobId : String) (ready : List String) (s : Store)
      (h : (zrem (delayedKey w.queue) jobId s.sortedSets).1 = true) :
      Step configs now handlers w (.moving (jobId :: ready)) s (.moved jobId ready)
        (s.onSets fun sets => (zrem (delayedKey w.queue) jobId sets).2) []
  | moveGone (jobId : String) (ready : List String) (s : Store)
      (h : (zrem (delayedKey w.queue) jobId s.sortedSets).1 = false) :
      Step configs now handlers w (.moving (jobId :: ready)) s (.moving ready) s []
  | movePush (jobId : String) (ready : List String) (s : Store) :
      Step configs now handlers w (.moved jobId ready) s (.moving ready)
        (s.onLists (rpush (waitingKey w.queue) jobId)) []
  | full (skipped : List String) (s : Store) (hmode : w.mode = .grouped)
      (h : w.concurrency ≤ (handlersOf w.id handlers).length) :
      Step configs now handlers w (.popping skipped) s (.returning skipped) s []
  | empty (skipped : List String) (s : Store) (h : items s.lists (waitingKey w.queue) = []) :
      Step configs now handlers w (.popping skipped) s (.returning skipped) s []
  | pop (skipped rest : List String) (jobId : String) (s : Store)
      (hroom : w.mode = .grouped → (handlersOf w.id handlers).length < w.concurrency)
      (h : items s.lists (waitingKey w.queue) = rest ++ [jobId]) :
      Step configs now handlers w (.popping skipped) s (.popped jobId skipped)
        (s.onLists fun lists => (rpop (waitingKey w.queue) lists).2) []
  | activate (jobId : String) (skipped : List String) (s : Store) :
      Step configs now handlers w (.popped jobId skipped) s (.reading jobId skipped)
        (s.onLists (lpush (activeKey w.queue) jobId)) []
  | unread (jobId : String) (skipped : List String) (s : Store)
      (h : (s.getJob (jobKey w.queue jobId)).bind Record.read = none) :
      Step configs now handlers w (.reading jobId skipped) s (.returning skipped) s []
  | read (jobId : String) (skipped : List String) (s : Store) (job : Job)
      (h : (s.getJob (jobKey w.queue jobId)).bind Record.read = some job) :
      Step configs now handlers w (.reading jobId skipped) s (.deciding job skipped) s []
  | permit (job : Job) (skipped : List String) (s : Store) (hmode : w.mode = .concurrent)
      (h : (handlersOf w.id handlers).length < w.concurrency) :
      Step configs now handlers w (.deciding job skipped) s (.popping skipped) s
        [spawned configs w false job]
  | noPermit (job : Job) (s : Store) (hmode : w.mode = .concurrent)
      (h : w.concurrency ≤ (handlersOf w.id handlers).length) :
      Step configs now handlers w (.deciding job []) s (.putBack job.id) s []
  | putBack (jobId : String) (s : Store) :
      Step configs now handlers w (.putBack jobId) s (.putBackRem jobId)
        (s.onLists (lpush (waitingKey w.queue) jobId)) []
  | putBackRem (jobId : String) (s : Store) :
      Step configs now handlers w (.putBackRem jobId) s .tick (s.onLists (lrem (activeKey w.queue) 1 jobId)) []
  | skip (job : Job) (skipped : List String) (s : Store) (hmode : w.mode = .grouped)
      (h : groupOf job ∈ (handlersOf w.id handlers).map (·.group)) :
      Step configs now handlers w (.deciding job skipped) s (.popping (skipped ++ [job.id])) s []
  | start (job : Job) (skipped : List String) (s : Store) (hmode : w.mode = .grouped)
      (h : groupOf job ∉ (handlersOf w.id handlers).map (·.group)) :
      Step configs now handlers w (.deciding job skipped) s (.popping skipped) s [spawned configs w true job]
  | returnPush (jobId : String) (skipped : List String) (s : Store) :
      Step configs now handlers w (.returning (jobId :: skipped)) s (.returningRem jobId skipped)
        (s.onLists (lpush (waitingKey w.queue) jobId)) []
  | returnRem (jobId : String) (skipped : List String) (s : Store) :
      Step configs now handlers w (.returningRem jobId skipped) s (.returning skipped)
        (s.onLists (lrem (activeKey w.queue) 1 jobId)) []
  | returned (s : Store) : Step configs now handlers w (.returning []) s .tick s []
  | inline (job : Job) (s : Store) (hmode : w.mode = .fifo) :
      Step configs now handlers w (.deciding job []) s
        (.inline (.handling (applySubscriptionOverrides configs job))) s []
  | inlineDone (s : Store) : Step configs now handlers w (.inline .done) s .tick s []

/-! ### Restarts -/

def isJobKey (key : String) : Bool :=
  "queue:".toList.isPrefixOf key.toList && decide (":jobs:".toList <:+: key.toList)

def hasQueueState (s : Store) : Bool :=
  (s.lists.map (·.1) ++ s.dlqs.map (·.1) ++ s.sortedSets.map (·.1)).any fun key =>
    "queue:".toList.isPrefixOf key.toList

/-- A record without a place in a list or set gets one. -/
def replace (now : Nat) (s : Store) (job : Job) : Store :=
  match job.processAt with
  | some processAt =>
    if now < processAt then s.onSets (zadd (delayedKey job.queue) (asScore processAt) job.id)
    else s.onLists (lpush (waitingKey job.queue) job.id)
  | none => s.onLists (lpush (waitingKey job.queue) job.id)

/-- `key.split(':')`, the second part. -/
def queueNameOf (key : String) : Option String := ((key.toList.splitOn ':')[1]?).map String.ofList

def rebuildFromStorage (now : Nat) (s : Store) : Store :=
  let jobKeys := (s.jobs.map (·.1)).filter isJobKey
  if hasQueueState s then (jobKeys.filterMap queueNameOf).dedup.foldl (fun s q => moveDelayedToWaiting now q s) s
  else (jobKeys.filterMap fun key => (s.getJob key).bind Record.read).foldl (replace now) s

/-! ### The system -/

/-- A push whose record is written: the job, and the score it is to be delayed with. -/
structure Pushing where
  job : Job
  score : Option Int

structure State where
  store : Store
  saved : Store
  pushing : List Pushing
  workers : List Worker
  handlers : List Handler
  configs : Configs
  pushed : List (String × String)
  acked : List (String × String)

def State.empty : State := ⟨.empty, .empty, [], [], [], [], [], []⟩

def Pushing.enter (p : Pushing) (s : Store) : Store :=
  match p.score with
  | some score => s.onSets (zadd (delayedKey p.job.queue) score p.job.id)
  | none => s.onLists (lpush (waitingKey p.job.queue) p.job.id)

/-- An id is new. -/
def State.Fresh (st : State) (q id : String) : Prop :=
  Plain id ∧ (q, id) ∉ st.pushed ∧ ∀ p ∈ st.pushing, (p.job.queue, p.job.id) ≠ (q, id)

/-- What a run allows at the two steps that drop tasks. -/
structure Conditions where
  unsubscribe : State → Worker → Prop
  restart : State → Prop

inductive Step (C : Conditions) : State → State → Prop
  | pushStart (st : State) (p : Pushing) (hfresh : st.Fresh p.job.queue p.job.id) : Step C st
      { st with store := st.store.setJob (jobKey p.job.queue p.job.id) (.job p.job)
                pushing := p :: st.pushing }
  | pushEnd (st : State) (a b : List Pushing) (p : Pushing) (h : st.pushing = a ++ p :: b) : Step C st
      { st with store := p.enter st.store, pushing := a ++ b
                pushed := (p.job.queue, p.job.id) :: st.pushed }
  | subscribe (st : State) (w : Worker) (configs : Configs) (hplace : w.place = .tick)
      (hworker : ∀ w' ∈ st.workers, w'.id ≠ w.id) (hhandler : ∀ h ∈ st.handlers, h.worker ≠ w.id) :
      Step C st { st with workers := w :: st.workers, configs := configs }
  | worker (st : State) (now : Nat) (a b : List Worker) (w : Worker) (place : Place) (store : Store)
      (spawned : List Handler) (h : st.workers = a ++ w :: b)
      (hstep : w.Step st.configs now st.handlers w.place st.store place store spawned) : Step C st
      { st with store, workers := a ++ { w with place } :: b, handlers := spawned ++ st.handlers }
  | inline (st : State) (now : Nat) (a b : List Worker) (w : Worker) (stage stage' : Stage) (store : Store)
      (acked : List String) (h : st.workers = a ++ w :: b) (hplace : w.place = .inline stage)
      (hstep : stage.Step st.configs now w.queue true st.store stage' store acked) : Step C st
      { st with store, workers := a ++ { w with place := .inline stage' } :: b
                acked := acked.map (w.queue, ·) ++ st.acked }
  | handler (st : State) (now : Nat) (a b : List Handler) (h : Handler) (stage : Stage) (store : Store)
      (acked : List String) (hsplit : st.handlers = a ++ h :: b)
      (hstep : h.stage.Step st.configs now h.queue h.inline st.store stage store acked) : Step C st
      { st with store, handlers := a ++ { h with stage } :: b
                acked := acked.map (h.queue, ·) ++ st.acked }
  | handlerEnd (st : State) (a b : List Handler) (h : Handler) (hsplit : st.handlers = a ++ h :: b)
      (hdone : h.stage = .done) : Step C st { st with handlers := a ++ b }
  | saveLists (st : State) : Step C st
      { st with saved := { st.saved with lists := st.store.lists, dlqs := st.store.dlqs } }
  | saveSets (st : State) : Step C st
      { st with saved := { st.saved with sortedSets := st.store.sortedSets } }
  | saveJobs (st : State) : Step C st { st with saved := { st.saved with jobs := st.store.jobs } }
  | unsubscribe (st : State) (a b : List Worker) (w : Worker) (h : st.workers = a ++ w :: b)
      (hallow : C.unsubscribe st w) : Step C st { st with workers := a ++ b }
  | restart (st : State) (now : Nat) (hallow : C.restart st) : Step C st
      { st with store := rebuildFromStorage now st.saved, pushing := [], workers := [], handlers := []
                configs := [] }

def system (C : Conditions) : System State where
  Init st := st = .empty
  Step := Step C

end Iii.Queue.Tasks
