import Iii.Lib.Window
import Iii.Queue.Attempts

/-! The consumer of a function queue, and how it stops (`adapters/builtin/adapter.rs`).

A task of the adapter pops jobs, registers each of them as a delivery and sends it into a
channel of `prefetch` messages; the consumer at the other end receives them and answers by
delivery id. When the receiver is dropped, the task nacks what it may not have handed over:
the ids it has kept, of which only the last few can still be in the channel.

The task, the consumer and the calls it makes take turns, and between any two of their steps
other tasks use the queue and the delivery map. An operation of the queue is one step. The
clean-up keeps the map locked while it nacks; here others may go on meanwhile, so there are
more runs than the program has. -/
namespace Iii.Queue.Consumer
open Lib

structure DeliveryInfo where
  queueName : String
  jobId : String

/-- The job as the books have it. -/
def DeliveryInfo.job (info : DeliveryInfo) : String × String := (info.queueName, info.jobId)

structure QueueMessage where
  deliveryId : Nat
  functionId : String
  data : Value
  attempt : Nat
  messageId : Option String
  traceparent : Option String
  baggage : Option String
  namespace_ : Option String

def QueueMessage.ofJob (deliveryId : Nat) (job : Job) : QueueMessage where
  deliveryId := deliveryId
  functionId := job.functionId.getD ""
  data := job.data
  attempt := job.attemptsMade
  messageId := job.messageId
  traceparent := job.traceparent
  baggage := job.baggage
  namespace_ := job.namespace_

def namespaced (queueName : String) : String := "__fn_queue::" ++ queueName

/-- `(prefetch as usize).max(1)`. -/
def window (prefetch : Nat) : Nat := max prefetch 1

/-- `while outstanding.len() > window { outstanding.pop_front(); }` -/
def trim (window : Nat) : List Nat → List Nat
  | [] => []
  | d :: rest => if window < rest.length + 1 then trim window rest else d :: rest

/-- Where the task of `consume_function_queue` stands. `blocked` waits for a place in the
channel, `permitted` has one; `cleaning` has these ids left to nack. -/
inductive Place where
  | checking
  | moving
  | popping
  | asleep
  | popped (job : Job)
  | drawn (deliveryId : Nat) (job : Job)
  | blocked (msg : QueueMessage)
  | permitted (msg : QueueMessage)
  | sent
  | cleaning (rest : List Nat)
  | nacking (deliveryId : Nat) (info : DeliveryInfo) (rest : List Nat)
  | done

/-- `ack_function_queue` or `nack_function_queue`, past the delivery map. -/
inductive Call where
  | ack (info : DeliveryInfo)
  | nack (info : DeliveryInfo)

def Call.info : Call → DeliveryInfo
  | .ack info | .nack info => info

def Call.op (configs : Configs) (now : Nat) : Call → Op
  | .ack info => .ack info.queueName info.jobId
  | .nack info => .nack configs now info.queueName info.jobId "function call failed"

/-- The queue with its books, the delivery map and its counter, the task with its local
`outstanding`, the channel, and the calls of the consumer. The ids that were registered, sent,
received, and nacked by the clean-up are kept on the side. -/
structure State where
  jobs : Queue.State
  attempts : Counts
  deliveries : List (Nat × DeliveryInfo)
  deliveryCounter : Nat
  place : Place
  outstanding : List Nat
  channel : List QueueMessage
  closed : Bool
  calls : List Call
  registered : List Nat
  sent : List Nat
  received : List Nat
  returned : List Nat

def State.perform (s : State) (op : Op) : State :=
  { s with jobs := s.jobs.apply op, attempts := op.count s.jobs s.attempts }

/-- A consumer that starts on a queue in use. -/
structure Starts (prefetch : Nat) (s : State) : Prop where
  /-- `mpsc::channel` panics otherwise. -/
  buffer : 0 < prefetch
  jobs : Inv s.jobs
  attempts : Counted s.jobs.store s.attempts
  place : s.place = .checking
  outstanding : s.outstanding = []
  channel : s.channel = []
  closed : s.closed = false
  calls : s.calls = []
  registered : s.registered = []
  sent : s.sent = []
  received : s.received = []
  returned : s.returned = []

/-! ### Jobs in the hands of this consumer -/

def Place.held (queueName : String) : Place → List (String × String)
  | .popped job | .drawn _ job => [(namespaced queueName, job.id)]
  | .nacking _ info _ => [info.job]
  | _ => []

/-- The entries of the deliveries this task registered. -/
def State.entries (s : State) : List DeliveryInfo := s.registered.filterMap fun d => Assoc.get? s.deliveries d

/-- The jobs this consumer is to answer for: popped, in the delivery map, or in a call. -/
def State.held (queueName : String) (s : State) : List (String × String) :=
  s.place.held queueName ++ s.entries.map (·.job) ++ s.calls.map (·.info.job)

/-- The delivery id the task has drawn and not registered yet. -/
def Place.drawnId : Place → Option Nat
  | .drawn deliveryId _ => some deliveryId
  | _ => none

/-- The delivery an operation answers, or writes the record of. -/
def answers : Op → Option (String × String)
  | .ack queue jobId | .nack _ _ queue jobId _ | .requeue queue jobId => some (queue, jobId)
  | .retryInline queue job | .exhaustInline queue job _ _ => some (queue, job.id)
  | _ => none

/-! ### Steps -/

section Steps
variable (configs : Configs) (queueName : String) (prefetch : Nat)

inductive Producer (s : State) : State → Prop
  | closed (hplace : s.place = .checking) (hclosed : s.closed = true) :
      Producer s { s with place := .cleaning s.outstanding }
  | isOpen (hplace : s.place = .checking) (hclosed : s.closed = false) : Producer s { s with place := .moving }
  | move (now : Nat) (hplace : s.place = .moving) :
      Producer s { s.perform (.moveDelayedToWaiting now (namespaced queueName)) with place := .popping }
  | empty (hplace : s.place = .popping) (hpop : (pop (namespaced queueName) s.jobs.store).1 = none) :
      Producer s { s.perform (.pop (namespaced queueName)) with place := .asleep }
  | pop (job : Job) (hplace : s.place = .popping)
      (hpop : (pop (namespaced queueName) s.jobs.store).1 = some job) :
      Producer s { s.perform (.pop (namespaced queueName)) with place := .popped job }
  | awake (hplace : s.place = .asleep) : Producer s { s with place := .checking }
  | draw (job : Job) (hplace : s.place = .popped job) :
      Producer s { s with place := .drawn s.deliveryCounter job, deliveryCounter := s.deliveryCounter + 1 }
  | register (deliveryId : Nat) (job : Job) (hplace : s.place = .drawn deliveryId job) :
      Producer s { s with
        place := .blocked (.ofJob deliveryId job)
        deliveries := Assoc.insert s.deliveries deliveryId ⟨namespaced queueName, job.id⟩
        outstanding := s.outstanding ++ [deliveryId]
        registered := s.registered ++ [deliveryId] }
  | permit (msg : QueueMessage) (hplace : s.place = .blocked msg) (hclosed : s.closed = false)
      (hroom : s.channel.length < prefetch) : Producer s { s with place := .permitted msg }
  | refuse (msg : QueueMessage) (hplace : s.place = .blocked msg) (hclosed : s.closed = true) :
      Producer s { s with place := .cleaning s.outstanding }
  -- A receiver dropped after the permit was taken does not make the send fail.
  | send (msg : QueueMessage) (hplace : s.place = .permitted msg) :
      Producer s { s with place := .sent, channel := s.channel ++ [msg], sent := s.sent ++ [msg.deliveryId] }
  | trim (hplace : s.place = .sent) :
      Producer s { s with place := .checking, outstanding := trim (window prefetch) s.outstanding }
  | take (deliveryId : Nat) (info : DeliveryInfo) (rest : List Nat)
      (hplace : s.place = .cleaning (deliveryId :: rest))
      (hentry : Assoc.get? s.deliveries deliveryId = some info) :
      Producer s { s with
        place := .nacking deliveryId info rest, deliveries := Assoc.erase s.deliveries deliveryId }
  | skip (deliveryId : Nat) (rest : List Nat) (hplace : s.place = .cleaning (deliveryId :: rest))
      (hentry : Assoc.get? s.deliveries deliveryId = none) : Producer s { s with place := .cleaning rest }
  | nack (now deliveryId : Nat) (info : DeliveryInfo) (rest : List Nat)
      (hplace : s.place = .nacking deliveryId info rest) :
      Producer s { s.perform (.nack configs now info.queueName info.jobId "consumer stopped") with
        place := .cleaning rest, returned := s.returned ++ [deliveryId] }
  | finish (hplace : s.place = .cleaning []) : Producer s { s with place := .done }

inductive Receiver (s : State) : State → Prop
  | receive (msg : QueueMessage) (rest : List QueueMessage) (hclosed : s.closed = false)
      (hchannel : s.channel = msg :: rest) :
      Receiver s { s with channel := rest, received := s.received ++ [msg.deliveryId] }
  | drop : Receiver s { s with closed := true, channel := [] }
  | answer (deliveryId : Nat) (call : Call) (hreceived : deliveryId ∈ s.received)
      (hentry : Assoc.get? s.deliveries deliveryId = some call.info) :
      Receiver s { s with deliveries := Assoc.erase s.deliveries deliveryId, calls := call :: s.calls }
  | perform (now : Nat) (call : Call) (a b : List Call) (hcalls : s.calls = a ++ call :: b) :
      Receiver s { s.perform (call.op configs now) with calls := a ++ b }
  /-- An aborted consumer drops its calls where they stand. -/
  | abandon (call : Call) (a b : List Call) (hcalls : s.calls = a ++ call :: b) :
      Receiver s { s with calls := a ++ b }

/-- Other tasks draw delivery ids of their own from the counter, and answer for jobs of their
own. -/
inductive Others (s : State) : State → Prop
  | perform (op : Op) (hallows : s.jobs.Allows op) (hread : s.jobs.Readable op)
      (hothers : ∀ job ∈ s.held queueName, answers op ≠ some job) : Others s (s.perform op)
  | deliver (deliveries : List (Nat × DeliveryInfo)) (counter : Nat) (hcounter : s.deliveryCounter ≤ counter)
      (hothers : ∀ d, d ∈ s.registered ∨ s.place.drawnId = some d →
        Assoc.get? deliveries d = Assoc.get? s.deliveries d) :
      Others s { s with deliveries := deliveries, deliveryCounter := counter }

/-- The consumer of one function queue among the other tasks. -/
def system : System State where
  Init := Starts prefetch
  Step s s' := Producer configs queueName prefetch s s' ∨ Receiver configs s s' ∨ Others queueName s s'

end Steps

/-! ### The window -/

theorem trim_eq (window : Nat) (l : List Nat) : trim window l = l.rtake window := by
  induction l with
  | nil => simp [trim, List.rtake]
  | cons d rest ih =>
    rw [trim]
    split
    · rename_i h
      have hlen : rest.length + 1 - window = rest.length - window + 1 := by omega
      rw [ih, List.rtake, List.rtake, List.length_cons, hlen, List.drop_succ_cons]
    · rename_i h
      have hlen : rest.length + 1 - window = 0 := by omega
      rw [List.rtake, List.length_cons, hlen, List.drop_zero]

/-- The last element of `outstanding` that is not sent: the delivery of the send in progress, or
of one that was refused. -/
def Place.Unsent (unsent : List Nat) : Place → Prop
  | .blocked msg | .permitted msg => unsent = [msg.deliveryId]
  | .cleaning _ | .nacking _ _ _ | .done => True
  | _ => unsent = []

def Place.hasPermit : Place → Prop
  | .permitted _ => True
  | _ => False

/-- What is outstanding ends as what was sent does, as far as a full channel goes, and what was
not received is no more than that. -/
structure Windowed (prefetch : Nat) (s : State) (kept unsent unreceived : List Nat) : Prop where
  outstanding : s.outstanding = kept ++ unsent
  shows : Shows (window prefetch) kept s.sent
  registered : s.registered = s.sent ++ unsent
  unsent : s.place.Unsent unsent
  sent : s.sent = s.received ++ unreceived
  room : unreceived.length ≤ prefetch
  permit : s.place.hasPermit → unreceived.length < prefetch
  channel : s.channel.map (·.deliveryId) <:+ unreceived
  open_ : s.closed = false → s.channel.map (·.deliveryId) = unreceived

namespace Windowed
variable {configs : Configs} {queueName : String} {prefetch : Nat} {s s' : State}
  {kept unsent unreceived : List Nat}

theorem le_window (prefetch : Nat) : prefetch ≤ window prefetch := Nat.le_max_left ..

/-- What was sent and not received is outstanding. -/
theorem subset (h : Windowed prefetch s kept unsent unreceived) : unreceived ⊆ kept := by
  have hshows := h.shows.mono (h.room.trans (le_window prefetch))
  have hend : s.sent.rtake unreceived.length = unreceived := by
    rw [h.sent]
    simp [List.rtake]
  rw [Shows, hend] at hshows
  rw [← hshows]
  exact List.drop_subset _ _

/-- What was registered and not received is outstanding. -/
theorem mem_outstanding (h : Windowed prefetch s kept unsent unreceived) {d : Nat} (hd : d ∈ s.registered)
    (hreceived : d ∉ s.received) : d ∈ s.outstanding := by
  rw [h.registered, h.sent] at hd
  rw [h.outstanding]
  rcases List.mem_append.mp hd with hd | hd
  · rcases List.mem_append.mp hd with hd | hd
    · exact absurd hd hreceived
    · exact List.mem_append_left _ (h.subset hd)
  · exact List.mem_append_right _ hd

theorem of_starts (h : Starts prefetch s) : Windowed prefetch s [] [] [] where
  outstanding := h.outstanding
  shows := by
    rw [h.sent]
    exact Shows.refl _ _
  registered := by rw [h.registered, h.sent, List.append_nil]
  unsent := by
    rw [h.place]
    rfl
  sent := by rw [h.sent, h.received, List.append_nil]
  room := Nat.zero_le _
  permit hpermit := by
    rw [h.place] at hpermit
    cases hpermit
  channel := by
    rw [h.channel]
    exact List.nil_suffix
  open_ _ := by
    rw [h.channel]
    rfl

/-- The task goes on to a place without a permit that says as much of what is unsent. -/
theorem go (h : Windowed prefetch s kept unsent unreceived) {place : Place} (hunsent : place.Unsent unsent)
    (hpermit : ¬place.hasPermit) : Windowed prefetch { s with place } kept unsent unreceived :=
  { h with unsent := hunsent, permit := fun h' => absurd h' hpermit }

theorem producer (h : Windowed prefetch s kept unsent unreceived)
    (hstep : Producer configs queueName prefetch s s') :
    ∃ kept unsent unreceived, Windowed prefetch s' kept unsent unreceived := by
  have hunsent := h.unsent
  cases hstep with
  | closed hplace hclosed => exact ⟨kept, unsent, unreceived, h.go trivial not_false⟩
  | isOpen hplace hclosed =>
    rw [hplace] at hunsent
    exact ⟨kept, unsent, unreceived, h.go hunsent not_false⟩
  | move now hplace =>
    rw [hplace] at hunsent
    exact ⟨kept, unsent, unreceived, { h with unsent := hunsent, permit := False.elim }⟩
  | empty hplace hpop =>
    rw [hplace] at hunsent
    exact ⟨kept, unsent, unreceived, { h with unsent := hunsent, permit := False.elim }⟩
  | pop job hplace hpop =>
    rw [hplace] at hunsent
    exact ⟨kept, unsent, unreceived, { h with unsent := hunsent, permit := False.elim }⟩
  | awake hplace =>
    rw [hplace] at hunsent
    exact ⟨kept, unsent, unreceived, h.go hunsent not_false⟩
  | draw job hplace =>
    rw [hplace] at hunsent
    exact ⟨kept, unsent, unreceived, { h with unsent := hunsent, permit := False.elim }⟩
  | register deliveryId job hplace =>
    rw [hplace] at hunsent
    obtain rfl : unsent = [] := hunsent
    refine ⟨kept, [deliveryId], unreceived, { h with
      outstanding := ?_, registered := ?_, unsent := rfl, permit := False.elim }⟩
    · rw [h.outstanding, List.append_nil]
    · rw [h.registered, List.append_nil]
  | permit msg hplace hclosed hroom =>
    rw [hplace] at hunsent
    refine ⟨kept, unsent, unreceived, { h with unsent := hunsent, permit := fun _ => ?_ }⟩
    rw [← h.open_ hclosed, List.length_map]
    exact hroom
  | refuse msg hplace hclosed => exact ⟨kept, unsent, unreceived, h.go trivial not_false⟩
  | send msg hplace =>
    rw [hplace] at hunsent
    obtain rfl : unsent = [msg.deliveryId] := hunsent
    have hpermit : unreceived.length < prefetch := h.permit (by rw [hplace]; trivial)
    refine ⟨kept ++ [msg.deliveryId], [], unreceived ++ [msg.deliveryId], {
      outstanding := ?_, shows := ?_, registered := ?_, unsent := rfl, sent := ?_, room := ?_
      permit := False.elim, channel := ?_, open_ := ?_ }⟩
    · rw [List.append_nil]
      exact h.outstanding
    · exact (h.shows.append [msg.deliveryId]).mono (Nat.le_add_right ..)
    · rw [List.append_nil]
      exact h.registered
    · show s.sent ++ _ = _
      rw [h.sent, List.append_assoc]
    · rw [List.length_append]
      exact hpermit
    · rw [List.map_append]
      obtain ⟨l, hl⟩ := h.channel
      exact ⟨l, by rw [← hl, List.append_assoc]; rfl⟩
    · intro hclosed
      rw [List.map_append, h.open_ hclosed]
      rfl
  | trim hplace =>
    rw [hplace] at hunsent
    obtain rfl : unsent = [] := hunsent
    refine ⟨kept.rtake (window prefetch), [], unreceived, { h with
      outstanding := ?_, shows := h.shows.trim (Nat.le_refl _), unsent := rfl, permit := False.elim }⟩
    rw [h.outstanding, List.append_nil, List.append_nil, trim_eq]
  | take deliveryId info rest hplace hentry =>
    exact ⟨kept, unsent, unreceived, { h with unsent := trivial, permit := False.elim }⟩
  | skip deliveryId rest hplace hentry => exact ⟨kept, unsent, unreceived, h.go trivial not_false⟩
  | nack now deliveryId info rest hplace =>
    exact ⟨kept, unsent, unreceived, { h with unsent := trivial, permit := False.elim }⟩
  | finish hplace => exact ⟨kept, unsent, unreceived, h.go trivial not_false⟩

theorem receiver (h : Windowed prefetch s kept unsent unreceived) (hstep : Receiver configs s s') :
    ∃ kept unsent unreceived, Windowed prefetch s' kept unsent unreceived := by
  cases hstep with
  | receive msg rest hclosed hchannel =>
    have hopen := h.open_ hclosed
    rw [hchannel, List.map_cons] at hopen
    refine ⟨kept, unsent, rest.map (·.deliveryId), { h with
      sent := ?_, room := ?_, permit := fun hpermit => ?_, channel := List.suffix_refl _, open_ := fun _ => rfl }⟩
    · show s.sent = s.received ++ [msg.deliveryId] ++ _
      rw [h.sent, ← hopen, List.append_assoc]
      rfl
    · have hroom := h.room
      rw [← hopen, List.length_cons] at hroom
      exact Nat.le_of_succ_le hroom
    · have hroom := h.permit hpermit
      rw [← hopen, List.length_cons] at hroom
      exact Nat.lt_of_succ_lt hroom
  | drop =>
    exact ⟨kept, unsent, unreceived, { h with channel := List.nil_suffix, open_ := fun h' => nomatch h' }⟩
  | answer deliveryId call hreceived hentry => exact ⟨kept, unsent, unreceived, { h with }⟩
  | perform now call a b hcalls => exact ⟨kept, unsent, unreceived, { h with }⟩
  | abandon call a b hcalls => exact ⟨kept, unsent, unreceived, { h with }⟩

theorem reachable (h : (system configs queueName prefetch).Reachable s) :
    ∃ kept unsent unreceived, Windowed prefetch s kept unsent unreceived := by
  apply h.invariant (I := fun s => ∃ kept unsent unreceived, Windowed prefetch s kept unsent unreceived)
  · intro s hstarts
    exact ⟨[], [], [], of_starts hstarts⟩
  · intro s s' _ ⟨kept, unsent, unreceived, h⟩ hstep
    rcases hstep with hstep | hstep | hstep
    · exact h.producer hstep
    · exact h.receiver hstep
    · cases hstep with
      | perform op hallows hread hothers => exact ⟨kept, unsent, unreceived, { h with }⟩
      | deliver deliveries counter hcounter hothers => exact ⟨kept, unsent, unreceived, { h with }⟩

end Windowed

end Iii.Queue.Consumer
