import Iii.Lib.System
import Iii.Queue.Lanes

/-! No job is lost or duplicated by the queue operations.

A run is any sequence of operations by producers, workers and operators. It keeps
books beside the store: what was pushed, what was acknowledged or discarded, and the
deliveries that `pop` handed out and that nobody has answered yet. `Conserved` says
that the store and the books agree about every job.

Bulk redrive is the one operation that can break this: it takes every item off the
dead-letter list and drops those it cannot read back, and a job whose data nests too
deep is written as an item that cannot be read back. -/
namespace Iii.Queue
open Lib Store

/-! ### Runs -/

inductive Op where
  | push (cfg : QueueConfig) (id : String) (now : Nat) (queue : String) (data : Value)
      (traceparent baggage : Option String)
  | pushJob (job : Job)
  | pushFifo (cfg : QueueConfig) (id : String) (now : Nat) (queue : String) (data : Value) (groupId : String)
      (traceparent baggage : Option String)
  | pushDelayed (cfg : QueueConfig) (id : String) (now : Nat) (queue : String) (data : Value) (delayMs : Nat)
      (traceparent baggage : Option String)
  | pop (queue : String)
  | ack (queue jobId : String)
  | nack (configs : Configs) (now : Nat) (queue jobId error : String)
  | requeue (queue jobId : String)
  /-- An inline retry writes the record of the job it is about to handle again. -/
  | retryInline (queue : String) (job : Job)
  /-- An inline retry gives up. -/
  | exhaustInline (queue : String) (job : Job) (error : String) (now : Nat)
  | moveDelayedToWaiting (now : Nat) (queue : String)
  | dlqRedrive (queue : String)
  | dlqRedriveMessage (queue messageId : String)
  | dlqDiscardMessage (queue messageId : String)

/-- The store and the books. A job is its queue and its id. -/
structure State where
  store : Store
  pushed : List (String × String)
  finished : List (String × String)
  delivered : List (String × String)

def State.empty : State := ⟨.empty, [], [], []⟩

def State.apply (st : State) : Op → State
  | .push cfg id now queue data traceparent baggage =>
    { st with store := push cfg id now queue data traceparent baggage st.store,
              pushed := (queue, id) :: st.pushed }
  | .pushJob job => { st with store := pushJob job st.store, pushed := (job.queue, job.id) :: st.pushed }
  | .pushFifo cfg id now queue data groupId traceparent baggage =>
    { st with store := pushFifo cfg id now queue data groupId traceparent baggage st.store,
              pushed := (queue, id) :: st.pushed }
  | .pushDelayed cfg id now queue data delayMs traceparent baggage =>
    { st with store := pushDelayed cfg id now queue data delayMs traceparent baggage st.store,
              pushed := (queue, id) :: st.pushed }
  | .pop queue =>
    match pop queue st.store with
    | (some job, store) => { st with store, delivered := (queue, job.id) :: st.delivered }
    | (none, store) => { st with store }
  | .ack queue jobId =>
    { st with store := ack queue jobId st.store, finished := (queue, jobId) :: st.finished,
              delivered := st.delivered.erase (queue, jobId) }
  | .nack configs now queue jobId error =>
    { st with store := nack configs now queue jobId error st.store,
              delivered := st.delivered.erase (queue, jobId) }
  | .requeue queue jobId =>
    { st with store := requeue queue jobId st.store, delivered := st.delivered.erase (queue, jobId) }
  | .retryInline queue job => { st with store := st.store.setJob (jobKey queue job.id) (.job job) }
  | .exhaustInline queue job error now =>
    { st with store := moveToDlq queue job error now st.store,
              delivered := st.delivered.erase (queue, job.id) }
  | .moveDelayedToWaiting now queue => { st with store := moveDelayedToWaiting now queue st.store }
  | .dlqRedrive queue => { st with store := (dlqRedrive queue st.store).2 }
  | .dlqRedriveMessage queue messageId =>
    { st with store := (dlqRedriveMessage queue messageId st.store).2 }
  | .dlqDiscardMessage queue messageId =>
    match dlqDiscardMessage queue messageId st.store with
    | (true, store) => { st with store, finished := (queue, messageId) :: st.finished }
    | (false, store) => { st with store }

/-- Ids are made fresh, and a delivery is answered at most once. -/
def State.Allows (st : State) : Op → Prop
  | .push _ id _ queue _ _ _ | .pushFifo _ id _ queue _ _ _ _ | .pushDelayed _ id _ queue _ _ _ _ =>
    Plain id ∧ (queue, id) ∉ st.pushed
  | .pushJob job => Plain job.id ∧ (job.queue, job.id) ∉ st.pushed
  | .ack queue jobId | .nack _ _ queue jobId _ | .requeue queue jobId => (queue, jobId) ∈ st.delivered
  | .retryInline queue job | .exhaustInline queue job _ _ => (queue, job.id) ∈ st.delivered
  | _ => True

/-- A bulk redrive finds only items that it can read back. -/
def State.Readable (st : State) : Op → Prop
  | .dlqRedrive queue => ∀ item ∈ (lanes st.store queue).dead, item.parse.isSome
  | _ => True

/-- The runs whose operations all meet a condition. -/
def runs (condition : State → Op → Prop) : System State where
  Init st := st = .empty
  Step st st' := ∃ op, st.Allows op ∧ condition st op ∧ st' = st.apply op

/-! ### The books -/

namespace Lanes

/-- How often a job stands where a record belongs to it. -/
def live (l : Lanes) (id : String) : Nat :=
  l.waiting.count id + l.active.count id + (members l.delayed).count id

end Lanes

/-- Every pushed job is in one place, and has its record while it is not done. -/
def Conserved (st : State) : Prop :=
  ∀ q id, (q, id) ∈ st.pushed →
    ((lanes st.store q).waiting.count id + (lanes st.store q).active.count id
      + (members (lanes st.store q).delayed).count id + (lanes st.store q).deadIds.count id
      + st.finished.count (q, id) = 1) ∧
    ((record st.store q id).isSome ↔
      id ∈ (lanes st.store q).waiting ∨ id ∈ (lanes st.store q).active ∨
        id ∈ members (lanes st.store q).delayed)

structure Inv (st : State) : Prop where
  total : ∀ q id, (lanes st.store q).live id + (lanes st.store q).deadIds.count id
    + st.finished.count (q, id) = st.pushed.count (q, id)
  once : st.pushed.Nodup
  plain : ∀ q id, (q, id) ∈ st.pushed → Plain id
  recorded : ∀ q id, Plain id → ((record st.store q id).isSome ↔ 0 < (lanes st.store q).live id)
  own : ∀ q id r, Plain id → record st.store q id = some r → ∃ job, r = .job job ∧ job.id = id
  held : ∀ q id, st.delivered.count (q, id) ≤ (lanes st.store q).active.count id
  letters : ∀ q, ∀ item ∈ (lanes st.store q).dead, item.writtenId.isSome

namespace Inv
variable {st st' : State} (inv : Inv st)

theorem empty : Inv .empty where
  total _ _ := by simp [State.empty, Store.empty, lanes, Lanes.live, Lanes.deadIds, members]
  once := List.nodup_nil
  plain _ _ h := by cases h
  recorded _ _ _ := by simp [State.empty, Store.empty, lanes, Lanes.live, members, record, getJob]
  own _ _ _ _ h := by cases h
  held _ _ := by simp [State.empty]
  letters _ _ h := by cases h

theorem conserved (inv : Inv st) : Conserved st := by
  intro q id hmem
  have htotal := inv.total q id
  have hone : st.pushed.count (q, id) = 1 := List.count_eq_one_of_mem inv.once hmem
  refine ⟨by unfold Lanes.live at htotal; omega, ?_⟩
  rw [inv.recorded q id (inv.plain q id hmem), Lanes.live, ← List.count_pos_iff, ← List.count_pos_iff,
    ← List.count_pos_iff]
  omega

variable {q id : String} {job : Job}

/-- A change to one job: the books and the lanes of every other job stand as they were. -/
theorem change (inv : Inv st) (hid : Plain id) {l : Lanes}
    (hlanes : lanes st'.store = Function.update (lanes st.store) q l)
    (hlive : ∀ id', id' ≠ id → l.live id' = (lanes st.store q).live id')
    (hdead : ∀ id', id' ≠ id → l.deadIds.count id' = (lanes st.store q).deadIds.count id')
    (hactive : ∀ id', id' ≠ id → (lanes st.store q).active.count id' ≤ l.active.count id')
    (hrecord : ∀ q' id', Plain id' → ¬(q = q' ∧ id = id') → record st'.store q' id' = record st.store q' id')
    (hpushed : ∀ p, p ≠ (q, id) → st'.pushed.count p = st.pushed.count p)
    (hfinished : ∀ p, p ≠ (q, id) → st'.finished.count p = st.finished.count p)
    (hdelivered : ∀ p, p ≠ (q, id) → st'.delivered.count p ≤ st.delivered.count p) (honce : st'.pushed.Nodup)
    (hplain : ∀ q id, (q, id) ∈ st'.pushed → Plain id) (hletters : ∀ item ∈ l.dead, item.writtenId.isSome)
    (htotal : l.live id + l.deadIds.count id + st'.finished.count (q, id) = st'.pushed.count (q, id))
    (hrecorded : (record st'.store q id).isSome ↔ 0 < l.live id)
    (hown : ∀ r, record st'.store q id = some r → ∃ job, r = .job job ∧ job.id = id)
    (hheld : st'.delivered.count (q, id) ≤ l.active.count id) : Inv st' := by
  have hsame : ∀ q', q' ≠ q → lanes st'.store q' = lanes st.store q' := by
    intro q' h
    rw [hlanes, Function.update_of_ne h]
  have hhere : lanes st'.store q = l := by rw [hlanes, Function.update_self]
  refine ⟨?_, honce, hplain, ?_, ?_, ?_, ?_⟩
  · intro q' id'
    by_cases h : (q', id') = (q, id)
    · obtain ⟨rfl, rfl⟩ := Prod.mk.inj h
      rw [hhere]
      exact htotal
    · rw [hpushed _ h, hfinished _ h, ← inv.total q' id']
      by_cases hq : q' = q
      · subst hq
        have hne : id' ≠ id := fun h' => h (by rw [h'])
        rw [hhere, hlive _ hne, hdead _ hne]
      · rw [hsame q' hq]
  · intro q' id' hid'
    by_cases h : q = q' ∧ id = id'
    · obtain ⟨rfl, rfl⟩ := h
      rw [hhere]
      exact hrecorded
    · rw [hrecord _ _ hid' h, inv.recorded q' id' hid']
      by_cases hq : q' = q
      · subst hq
        have hne : id' ≠ id := fun h' => h ⟨rfl, h'.symm⟩
        rw [hhere, hlive _ hne]
      · rw [hsame q' hq]
  · intro q' id' r hid' hr
    by_cases h : q = q' ∧ id = id'
    · obtain ⟨rfl, rfl⟩ := h
      exact hown r hr
    · rw [hrecord _ _ hid' h] at hr
      exact inv.own q' id' r hid' hr
  · intro q' id'
    by_cases h : (q', id') = (q, id)
    · obtain ⟨rfl, rfl⟩ := Prod.mk.inj h
      rw [hhere]
      exact hheld
    · apply (hdelivered _ h).trans
      apply (inv.held q' id').trans
      by_cases hq : q' = q
      · subst hq
        have hne : id' ≠ id := fun h' => h (by rw [h'])
        rw [hhere]
        exact hactive _ hne
      · rw [hsame q' hq]
  · intro q' item hitem
    by_cases hq : q' = q
    · subst hq
      rw [hhere] at hitem
      exact hletters item hitem
    · rw [hsame q' hq] at hitem
      exact inv.letters q' item hitem

/-- A job that was never pushed is nowhere. -/
theorem absent (inv : Inv st) (h : (q, id) ∉ st.pushed) :
    (lanes st.store q).live id = 0 ∧ (lanes st.store q).deadIds.count id = 0 ∧
      st.finished.count (q, id) = 0 ∧ st.delivered.count (q, id) = 0 := by
  have htotal := inv.total q id
  rw [List.count_eq_zero_of_not_mem h] at htotal
  have hheld := inv.held q id
  unfold Lanes.live at htotal ⊢
  omega

/-- A change to one job that is no push. -/
theorem move (inv : Inv st) (hid : Plain id) {l : Lanes}
    (hlanes : lanes st'.store = Function.update (lanes st.store) q l)
    (hlive : ∀ id', id' ≠ id → l.live id' = (lanes st.store q).live id')
    (hdead : ∀ id', id' ≠ id → l.deadIds.count id' = (lanes st.store q).deadIds.count id')
    (hactive : ∀ id', id' ≠ id → (lanes st.store q).active.count id' ≤ l.active.count id')
    (hrecord : ∀ q' id', Plain id' → ¬(q = q' ∧ id = id') → record st'.store q' id' = record st.store q' id')
    (hpushed : st'.pushed = st.pushed)
    (hfinished : ∀ p, p ≠ (q, id) → st'.finished.count p = st.finished.count p)
    (hdelivered : ∀ p, p ≠ (q, id) → st'.delivered.count p ≤ st.delivered.count p)
    (hletters : ∀ item ∈ l.dead, item.writtenId.isSome)
    (htotal : l.live id + l.deadIds.count id + st'.finished.count (q, id) =
      (lanes st.store q).live id + (lanes st.store q).deadIds.count id + st.finished.count (q, id))
    (hrecorded : (record st'.store q id).isSome ↔ 0 < l.live id)
    (hown : ∀ r, record st'.store q id = some r → ∃ job, r = .job job ∧ job.id = id)
    (hheld : st'.delivered.count (q, id) ≤ l.active.count id) : Inv st' :=
  inv.change hid hlanes hlive hdead hactive hrecord (fun p _ => by rw [hpushed]) hfinished hdelivered
    (hpushed ▸ inv.once) (hpushed ▸ inv.plain) hletters (by rw [htotal, hpushed, inv.total]) hrecorded hown
    hheld

/-- A pushed job enters one lane, and its record is written. -/
theorem enter (inv : Inv st) {store : Store} {l : Lanes} (hjob : job.id = id) (hid : Plain id)
    (hfresh : (q, id) ∉ st.pushed) (hlanes : lanes store = Function.update (lanes st.store) q l)
    (hlive : ∀ id', id' ≠ id → l.live id' = (lanes st.store q).live id')
    (hhere : (lanes st.store q).live id = 0 → l.live id = 1) (hactive : l.active = (lanes st.store q).active)
    (hdead : l.dead = (lanes st.store q).dead)
    (hrecord : record store = record (st.store.setJob (jobKey q id) (.job job))) :
    Inv { st with store, pushed := (q, id) :: st.pushed } := by
  obtain ⟨hnone, hletter, hfinished, hheld⟩ := inv.absent hfresh
  have hids : l.deadIds = (lanes st.store q).deadIds := congrArg (List.filterMap Payload.writtenId) hdead
  have hone := hhere hnone
  refine inv.change hid hlanes hlive (fun _ _ => by rw [hids]) (fun _ _ => by rw [hactive]) ?_ ?_
    (fun _ _ => rfl) (fun _ _ => le_rfl) (List.nodup_cons.mpr ⟨hfresh, inv.once⟩) ?_ ?_ ?_ ?_ ?_ ?_
  · intro q' id' hid' h
    show record store q' id' = _
    rw [hrecord, record_setJob _ _ hid _ _ hid', if_neg h]
  · intro p h
    simp [Ne.symm h]
  · intro q' id' h
    rcases List.mem_cons.mp h with h | h
    · obtain ⟨rfl, rfl⟩ := Prod.mk.inj h
      exact hid
    · exact inv.plain q' id' h
  · rw [hdead]
    exact inv.letters q
  · rw [List.count_cons_self, List.count_eq_zero_of_not_mem hfresh, hone, hids, hletter, hfinished]
  · show (record store q id).isSome ↔ _
    rw [hrecord, record_setJob _ _ hid _ _ hid, if_pos ⟨rfl, rfl⟩, hone]
    simp
  · intro r hr
    replace hr : record store q id = some r := hr
    rw [hrecord, record_setJob _ _ hid _ _ hid, if_pos ⟨rfl, rfl⟩] at hr
    exact ⟨job, (Option.some.inj hr).symm, hjob⟩
  · rw [hheld]
    exact Nat.zero_le _

theorem pushJob (inv : Inv st) (hid : Plain job.id) (hfresh : (job.queue, job.id) ∉ st.pushed) :
    Inv { st with store := Queue.pushJob job st.store, pushed := (job.queue, job.id) :: st.pushed } := by
  apply inv.enter rfl hid hfresh (lanes_pushJob ..)
  · intro id' h
    simp [Lanes.live, Ne.symm h]
  · intro h
    simp only [Lanes.live, List.count_cons_self] at h ⊢
    omega
  · rfl
  · rfl
  · rfl

theorem pushDelayed (inv : Inv st) {cfg : QueueConfig} {now : Nat} {queue : String} {data : Value}
    {delayMs : Nat} {traceparent baggage : Option String} (hid : Plain id) (hfresh : (queue, id) ∉ st.pushed) :
    Inv { st with store := Queue.pushDelayed cfg id now queue data delayMs traceparent baggage st.store,
                  pushed := (queue, id) :: st.pushed } := by
  let job : Job :=
    { Job.newWithGroup id now queue data cfg.maxAttempts cfg.backoffMs none traceparent baggage with
      processAt := some (addMs now delayMs) }
  have hlanes : lanes (Queue.pushDelayed cfg id now queue data delayMs traceparent baggage st.store) =
      Function.update (lanes st.store) queue { lanes st.store queue with
        delayed := insertScore (asScore (addMs now delayMs)) id (lanes st.store queue).delayed } := by
    rw [Queue.pushDelayed, lanes_zadd, lanes_setJob]
  have hjob : job.id = id := rfl
  apply inv.enter hjob hid hfresh hlanes
  · intro id' h
    simp only [Lanes.live, count_members_insertScore, if_neg (Ne.symm h)]
  · intro h
    simp only [Lanes.live, count_members_insertScore, if_true] at h ⊢
    omega
  · rfl
  · rfl
  · rfl

/-- A job changes lanes between those that keep its record. -/
theorem shift (inv : Inv st) {l : Lanes} {store : Store} {delivered : List (String × String)}
    (hlanes : lanes store = Function.update (lanes st.store) q l)
    (hlive : ∀ id, l.live id = (lanes st.store q).live id) (hdead : l.dead = (lanes st.store q).dead)
    (hrecord : record store = record st.store) (hheld : ∀ id, delivered.count (q, id) ≤ l.active.count id)
    (hdelivered : ∀ p, p.1 ≠ q → delivered.count p ≤ st.delivered.count p) :
    Inv { st with store, delivered } := by
  have hids : l.deadIds = (lanes st.store q).deadIds := congrArg (List.filterMap Payload.writtenId) hdead
  have hlive' : ∀ q' id, (lanes store q').live id = (lanes st.store q').live id := by
    intro q' id
    rw [hlanes]
    by_cases hq : q' = q
    · rw [hq, Function.update_self, hlive]
    · rw [Function.update_of_ne hq]
  have hdead' : ∀ q', (lanes store q').dead = (lanes st.store q').dead := by
    intro q'
    rw [hlanes]
    by_cases hq : q' = q
    · rw [hq, Function.update_self, hdead]
    · rw [Function.update_of_ne hq]
  refine ⟨?_, inv.once, inv.plain, ?_, ?_, ?_, ?_⟩
  · intro q' id
    show (lanes store q').live id + ((lanes store q').dead.filterMap _).count id + _ = _
    rw [hlive', hdead']
    exact inv.total q' id
  · intro q' id hid
    show (record store q' id).isSome ↔ 0 < (lanes store q').live id
    rw [hlive', hrecord]
    exact inv.recorded q' id hid
  · intro q' id r hid hr
    exact inv.own q' id r hid (hrecord ▸ hr)
  · intro q' id
    show delivered.count (q', id) ≤ (lanes store q').active.count id
    by_cases hq : q' = q
    · rw [hq, hlanes, Function.update_self]
      exact hheld id
    · rw [hlanes, Function.update_of_ne hq]
      exact (hdelivered (q', id) hq).trans (inv.held q' id)
  · intro q' item hitem
    exact inv.letters q' item (hdead' q' ▸ hitem)

/-- A job in a lane that keeps a record has its own. -/
theorem exists_job (inv : Inv st) (hid : Plain id) (hlive : 0 < (lanes st.store q).live id) :
    ∃ job, record st.store q id = some (.job job) ∧ job.id = id := by
  obtain ⟨r, hr⟩ := Option.isSome_iff_exists.mp ((inv.recorded q id hid).mpr hlive)
  obtain ⟨job, rfl, hjob⟩ := inv.own q id r hid hr
  exact ⟨job, hr, hjob⟩

theorem plain_of_live (inv : Inv st) (hlive : 0 < (lanes st.store q).live id) : Plain id := by
  by_cases h : (q, id) ∈ st.pushed
  · exact inv.plain q id h
  · have hnone := (inv.absent h).1
    omega

theorem pop (inv : Inv st) (q : String) : Inv (st.apply (.pop q)) := by
  rcases List.eq_nil_or_concat' (lanes st.store q).waiting with h | ⟨w, id, h⟩
  · simp only [State.apply, pop_nil st.store q h]
    exact inv
  · have hlive : 0 < (lanes st.store q).live id := by
      rw [Lanes.live, h, List.count_append, List.count_singleton_self]
      omega
    obtain ⟨job, hrecord, rfl⟩ := inv.exists_job (inv.plain_of_live hlive) hlive
    simp only [State.apply, pop_snoc st.store q job.id h, hrecord, Option.bind_some, Record.read]
    apply inv.shift (lanes_popped st.store q job.id h)
    · intro id
      simp only [Lanes.live, h, List.count_append, List.count_cons, List.count_nil]
      omega
    · rfl
    · rfl
    · intro id
      have hheld := inv.held q id
      simp only [List.count_cons, beq_iff_eq, Prod.mk.injEq, true_and]
      omega
    · intro p hp
      have hne : (q, job.id) ≠ p := fun h' => hp (h' ▸ rfl)
      simp [hne]

theorem count_erase_pair {β : Type} [DecidableEq β] (l : List (String × β)) (q : String) (b c : β) :
    (l.erase (q, b)).count (q, c) = l.count (q, c) - if b = c then 1 else 0 := by
  rw [List.count_erase]
  by_cases h : b = c <;> simp [h]

/-- A delivery that is answered leaves one fewer to answer. -/
theorem delivered_erase (inv : Inv st) (q id id' : String) :
    (st.delivered.erase (q, id)).count (q, id') ≤ ((lanes st.store q).active.erase id).count id' := by
  have hheld := inv.held q id'
  rw [count_erase_pair, List.count_erase]
  by_cases h : id = id' <;> simp [h] <;> omega

theorem active_of_delivered (inv : Inv st) (h : (q, id) ∈ st.delivered) :
    0 < (lanes st.store q).active.count id :=
  lt_of_lt_of_le (List.count_pos_iff.mpr h) (inv.held q id)

theorem live_of_delivered (inv : Inv st) (h : (q, id) ∈ st.delivered) :
    0 < (lanes st.store q).live id := by
  have := inv.active_of_delivered h
  unfold Lanes.live
  omega

theorem requeue (inv : Inv st) (h : (q, id) ∈ st.delivered) :
    Inv (st.apply (.requeue q id)) := by
  have hactive := inv.active_of_delivered h
  apply inv.shift (lanes_requeue st.store q id)
  · intro id'
    simp only [Lanes.live, List.count_cons, List.count_erase, beq_iff_eq]
    by_cases h' : id = id'
    · subst h'
      simp only [if_true]
      omega
    · simp [h']
  · rfl
  · rfl
  · exact inv.delivered_erase q id
  · intro p _
    exact List.Sublist.count_le p List.erase_sublist

theorem moveReady (inv : Inv st) (q id : String) : Inv { st with store := Queue.moveReady q st.store id } := by
  by_cases h : id ∈ members (lanes st.store q).delayed
  · have hcount : (members (lanes st.store q).delayed).count id = 1 := by
      have htotal := inv.total q id
      have hone := List.nodup_iff_count_le_one.mp inv.once (q, id)
      have hpos := List.count_pos_iff.mpr h
      unfold Lanes.live at htotal
      omega
    apply inv.shift (lanes_moveReady_of_mem st.store q id h)
    · intro id'
      simp only [Lanes.live, List.count_append, count_members_filter, List.count_cons, List.count_nil,
        beq_iff_eq]
      by_cases h' : id = id'
      · subst h'
        simp only [if_true, hcount]
        omega
      · simp [h']
    · rfl
    · exact record_moveReady ..
    · exact fun _ => inv.held ..
    · exact fun _ _ => le_rfl
  · have hlanes : lanes (Queue.moveReady q st.store id) =
        Function.update (lanes st.store) q (lanes st.store q) := by
      rw [lanes_moveReady_of_not_mem _ _ _ h, Function.update_eq_self]
    exact inv.shift hlanes (fun _ => rfl) rfl (record_moveReady ..) (fun _ => inv.held ..) (fun _ _ => le_rfl)

theorem moveDelayedToWaiting (inv : Inv st) (now : Nat) (q : String) :
    Inv (st.apply (.moveDelayedToWaiting now q)) := by
  show Inv { st with store := List.foldl (Queue.moveReady q) st.store _ }
  generalize zrangebyscore (delayedKey q) 0 now st.store.sortedSets = ready
  induction ready generalizing st with
  | nil => exact inv
  | cons id rest ih => exact ih (inv.moveReady q id)

/-- A delivered job is in the active list and nowhere else. -/
theorem only_active (inv : Inv st) (h : (q, id) ∈ st.delivered) :
    (lanes st.store q).active.count id = 1 ∧ (lanes st.store q).waiting.count id = 0 ∧
      (members (lanes st.store q).delayed).count id = 0 := by
  have htotal := inv.total q id
  have hone := List.nodup_iff_count_le_one.mp inv.once (q, id)
  have hactive := inv.active_of_delivered h
  unfold Lanes.live at htotal
  omega

/-- A delivery is answered for good: the record goes, and the job is on the dead-letter
list or in the book of finished jobs. -/
theorem leave (inv : Inv st) {store : Store} {finished : List (String × String)} {dead : List Payload}
    (h : (q, id) ∈ st.delivered)
    (hlanes : lanes store = Function.update (lanes st.store) q
      { lanes st.store q with active := (lanes st.store q).active.erase id, dead := dead })
    (hrecord : record store = record (st.store.deleteJob (jobKey q id)))
    (hdead : ∀ id', id' ≠ id →
      (dead.filterMap Payload.writtenId).count id' = (lanes st.store q).deadIds.count id')
    (hfinished : ∀ p, p ≠ (q, id) → finished.count p = st.finished.count p)
    (hgone : (dead.filterMap Payload.writtenId).count id + finished.count (q, id) =
      (lanes st.store q).deadIds.count id + st.finished.count (q, id) + 1)
    (hletters : ∀ item ∈ dead, item.writtenId.isSome) :
    Inv { st with store, finished, delivered := st.delivered.erase (q, id) } := by
  have hid := inv.plain_of_live (inv.live_of_delivered h)
  obtain ⟨hactive, hwaiting, hdelayed⟩ := inv.only_active h
  have hnone : record store q id = none := by
    rw [hrecord, record_deleteJob _ _ hid _ hid, if_pos ⟨rfl, rfl⟩]
  refine inv.move hid hlanes ?_ hdead ?_ ?_ rfl hfinished ?_ hletters ?_ ?_ ?_ (inv.delivered_erase q id id)
  · intro id' h'
    simp only [Lanes.live, List.count_erase_of_ne h']
  · intro id' h'
    exact (List.count_erase_of_ne h').ge
  · intro q' id' hid' h'
    show record store q' id' = _
    rw [hrecord, record_deleteJob _ _ hid _ hid', if_neg h']
  · intro p _
    exact List.Sublist.count_le p List.erase_sublist
  · simp only [Lanes.live, List.count_erase_self, hactive, hwaiting, hdelayed]
    show _ + (dead.filterMap Payload.writtenId).count id + finished.count (q, id) = _
    omega
  · show (record store q id).isSome ↔ _
    simp [hnone, Lanes.live, hactive, hwaiting, hdelayed]
  · intro r hr
    replace hr : record store q id = some r := hr
    rw [hnone] at hr
    cases hr

theorem ack (inv : Inv st) (h : (q, id) ∈ st.delivered) : Inv (st.apply (.ack q id)) := by
  apply inv.leave h (lanes_ack st.store q id) rfl (fun _ _ => rfl) _ _ (inv.letters q)
  · intro p hp
    exact List.count_cons_of_ne (Ne.symm hp)
  · rw [List.count_cons_self]
    exact Nat.add_assoc .. |>.symm

theorem moveToDlq (inv : Inv st) (h : (q, job.id) ∈ st.delivered) (error : String) (now : Nat) :
    Inv (st.apply (.exhaustInline q job error now)) := by
  have hids : (Payload.failed job error now :: (lanes st.store q).dead).filterMap Payload.writtenId =
      job.id :: (lanes st.store q).deadIds := rfl
  apply inv.leave h (lanes_moveToDlq st.store q job error now) rfl _ (fun _ _ => rfl)
  · rw [hids, List.count_cons_self]
    show (lanes st.store q).deadIds.count job.id + 1 + _ = _
    omega
  · intro item hitem
    rcases List.mem_cons.mp hitem with rfl | hitem
    · rfl
    · exact inv.letters q item hitem
  · intro id' h'
    rw [hids, List.count_cons_of_ne (Ne.symm h')]

/-- The record of a job that keeps one is written again. -/
theorem rewrite (inv : Inv st) (hjob : job.id = id) (hlive : 0 < (lanes st.store q).live id) :
    Inv { st with store := st.store.setJob (jobKey q id) (.job job) } := by
  have hid := inv.plain_of_live hlive
  have hlanes : lanes (st.store.setJob (jobKey q id) (.job job)) =
      Function.update (lanes st.store) q (lanes st.store q) := by
    rw [lanes_setJob, Function.update_eq_self]
  refine inv.move hid hlanes (fun _ _ => rfl) (fun _ _ => rfl) (fun _ _ => le_rfl) ?_ rfl (fun _ _ => rfl)
    (fun _ _ => le_rfl) (inv.letters q) rfl ?_ ?_ (inv.held q id)
  · intro q' id' hid' h
    exact (record_setJob _ _ hid _ _ hid').trans (if_neg h)
  · show (record (st.store.setJob _ _) _ _).isSome ↔ _
    rw [record_setJob _ _ hid _ _ hid, if_pos ⟨rfl, rfl⟩]
    simpa using hlive
  · intro r hr
    replace hr : record (st.store.setJob _ _) _ _ = some r := hr
    rw [record_setJob _ _ hid _ _ hid, if_pos ⟨rfl, rfl⟩] at hr
    exact ⟨job, (Option.some.inj hr).symm, hjob⟩

/-- From the active list to the delayed set. -/
theorem delay (inv : Inv st) (h : (q, id) ∈ st.delivered) (score : Int) :
    Inv { st with
      store := (st.store.onLists (lrem (activeKey q) 1 id)).onSets (zadd (delayedKey q) score id)
      delivered := st.delivered.erase (q, id) } := by
  obtain ⟨hactive, hwaiting, hdelayed⟩ := inv.only_active h
  have hlanes : lanes ((st.store.onLists (lrem (activeKey q) 1 id)).onSets (zadd (delayedKey q) score id)) =
      Function.update (lanes st.store) q { lanes st.store q with
        active := (lanes st.store q).active.erase id
        delayed := insertScore score id (lanes st.store q).delayed } := by
    rw [lanes_zadd, lanes_lrem_active, Function.update_self, Function.update_idem]
  apply inv.shift hlanes
  · intro id'
    simp only [Lanes.live, count_members_insertScore, List.count_erase, beq_iff_eq]
    by_cases h' : id = id'
    · subst h'
      simp [hactive, hwaiting, hdelayed]
    · simp [h']
  · rfl
  · rfl
  · exact inv.delivered_erase q id
  · intro p _
    exact List.Sublist.count_le p List.erase_sublist

theorem nack (inv : Inv st) (h : (q, id) ∈ st.delivered) (configs : Configs) (now : Nat) (error : String) :
    Inv (st.apply (.nack configs now q id error)) := by
  have hlive := inv.live_of_delivered h
  obtain ⟨job, hrecord, rfl⟩ := inv.exists_job (inv.plain_of_live hlive) hlive
  have hjob : (applySubscriptionOverrides configs job).incrementAttempts.id = job.id := by
    unfold applySubscriptionOverrides
    split <;> rfl
  have hget : st.store.getJob (jobKey q job.id) = some (.job job) := hrecord
  simp only [State.apply, Queue.nack, hget]
  generalize (applySubscriptionOverrides configs job).incrementAttempts = job' at hjob ⊢
  by_cases hexhausted : job'.isExhausted = true
  · simp only [hexhausted, if_true, ← hjob] at h ⊢
    exact inv.moveToDlq h error now
  · simp only [hexhausted, Bool.false_eq_true, if_false]
    have hjob' : { job' with processAt := some (addMs now job'.calculateBackoff) }.id = job.id := hjob
    exact (inv.rewrite hjob' hlive).delay h _

theorem retryInline (inv : Inv st) (h : (q, job.id) ∈ st.delivered) :
    Inv (st.apply (.retryInline q job)) :=
  inv.rewrite rfl (inv.live_of_delivered h)

end Inv

/-! ### Dead letters -/

/-- One item of the dead-letter list, read back as `job`, is taken off it. -/
def Takes (s : Store) (q : String) (job : Job) (s' : Store) : Prop :=
  ∃ a b error failedAt, (lanes s q).dead = a ++ .failed job error failedAt :: b ∧
    lanes s' = Function.update (lanes s) q { lanes s q with dead := a ++ b } ∧ record s' = record s

theorem Payload.parse_eq_some {item : Payload} {job : Job} (h : item.parse = some job) :
    item.jobId = some job.id ∧ ∃ error failedAt, item = .failed job error failedAt := by
  cases item with
  | failed job' error failedAt =>
    simp only [Payload.parse, Option.ite_none_right_eq_some, Option.some.injEq] at h
    obtain ⟨hdepth, rfl⟩ := h
    exact ⟨by simp [Payload.jobId, hdepth], error, failedAt, rfl⟩
  | other text jobId => cases h

theorem takes_rpop {s : Store} {q : String} {d : List Payload} {item : Payload} {job : Job}
    (hdead : (lanes s q).dead = d ++ [item]) (hparse : item.parse = some job) :
    Takes s q job (s.onDlqs fun dlqs => (rpop (dlqKey q) dlqs).2) := by
  obtain ⟨-, error, failedAt, rfl⟩ := Payload.parse_eq_some hparse
  refine ⟨d, [], error, failedAt, hdead, ?_, rfl⟩
  rw [lanes_rpop_dlq, hdead, List.dropLast_concat, List.append_nil]

theorem dlqFindAndRemove_cases {s : Store} {q : String} (messageId : String)
    (hletters : ∀ item ∈ (lanes s q).dead, item.writtenId.isSome) :
    dlqFindAndRemove q messageId s = (none, s) ∨
      ∃ job s', dlqFindAndRemove q messageId s = (some job, s') ∧ job.id = messageId ∧ Takes s q job s' := by
  rcases lremoveFirstBy_cases (dlqKey q) (fun item : Payload => item.jobId = some messageId) s.dlqs with
    h | ⟨a, item, b, hdead, hitem, h⟩
  · left
    simp only [dlqFindAndRemove, h]
  · have hitem : item.jobId = some messageId := of_decide_eq_true hitem
    have hmem : item ∈ (lanes s q).dead := by
      show item ∈ items s.dlqs (dlqKey q)
      rw [hdead]
      simp
    cases item with
    | other text jobId => exact absurd (hletters _ hmem) (by simp [Payload.writtenId])
    | failed job error failedAt =>
      simp only [Payload.jobId, Option.ite_none_right_eq_some, Option.some.injEq] at hitem
      obtain ⟨hdepth, hid⟩ := hitem
      refine .inr ⟨job, { s with dlqs := put s.dlqs (dlqKey q) (a ++ b) }, ?_, hid, a, b, error, failedAt,
        hdead, lanes_put_dlq s q (a ++ b), rfl⟩
      simp only [dlqFindAndRemove, h, Payload.parse, hdepth, if_true]

theorem redriveLoop_nil {s : Store} {q : String} (fuel : Nat) (h : (lanes s q).dead = []) :
    redriveLoop q fuel s = (0, s) := by
  have hitems : items s.dlqs (dlqKey q) = [] := h
  cases fuel with
  | zero => rfl
  | succ fuel => simp [redriveLoop, rpop, hitems]

theorem redriveLoop_snoc {s : Store} {q : String} {d : List Payload} {item : Payload} (fuel : Nat)
    (h : (lanes s q).dead = d ++ [item]) :
    (redriveLoop q (fuel + 1) s).2 =
      match item.parse with
      | some job =>
        (redriveLoop q fuel (redriveJob q job (s.onDlqs fun dlqs => (rpop (dlqKey q) dlqs).2))).2
      | none => (redriveLoop q fuel (s.onDlqs fun dlqs => (rpop (dlqKey q) dlqs).2)).2 := by
  have hitems : items s.dlqs (dlqKey q) = d ++ [item] := h
  have hpop : rpop (dlqKey q) s.dlqs = (some item, put s.dlqs (dlqKey q) d) := by
    simp [rpop, hitems]
  have hstore : (s.onDlqs fun dlqs => (rpop (dlqKey q) dlqs).2) =
      { s with dlqs := put s.dlqs (dlqKey q) d } := by
    rw [onDlqs, hpop]
  rw [hstore]
  cases hparse : item.parse with
  | none => simp only [redriveLoop, hpop, hparse]
  | some job => simp only [redriveLoop, hpop, hparse]

/-- The loop runs until the list is empty. -/
theorem dlqRedrive_empties (s : Store) (q : String) : (lanes (dlqRedrive q s).2 q).dead = [] := by
  have hloop : ∀ fuel s, (lanes s q).dead.length = fuel →
      (lanes (redriveLoop q fuel s).2 q).dead = [] := by
    intro fuel
    induction fuel with
    | zero => exact fun s h => List.length_eq_zero_iff.mp h
    | succ fuel ih =>
      intro s h
      obtain ⟨d, item, hdead⟩ : ∃ d item, (lanes s q).dead = d ++ [item] := by
        rcases List.eq_nil_or_concat' (lanes s q).dead with hnil | hdead
        · rw [hnil] at h
          cases h
        · exact hdead
      have hlength : (lanes (s.onDlqs fun dlqs => (rpop (dlqKey q) dlqs).2) q).dead.length = fuel := by
        rw [lanes_rpop_dlq, Function.update_self, List.length_dropLast, h]
        rfl
      rw [redriveLoop_snoc fuel hdead]
      cases item.parse with
      | none => exact ih _ hlength
      | some job =>
        apply ih
        rw [lanes_redriveJob, Function.update_self]
        exact hlength
  exact hloop _ s rfl

namespace Inv
variable {st : State}

variable {q : String}

/-- A letter's job has no record, and stands nowhere else. -/
theorem only_dead (inv : Inv st) {job : Job} {s' : Store} (h : Takes st.store q job s') :
    (lanes st.store q).live job.id = 0 ∧ (lanes st.store q).deadIds.count job.id = 1 ∧
      st.finished.count (q, job.id) = 0 ∧ Plain job.id := by
  obtain ⟨a, b, error, failedAt, hdead, -, -⟩ := h
  have hpos : 0 < (lanes st.store q).deadIds.count job.id := by
    apply List.count_pos_iff.mpr
    rw [Lanes.deadIds, hdead]
    simp [Payload.writtenId]
  have htotal := inv.total q job.id
  have hone := List.nodup_iff_count_le_one.mp inv.once (q, job.id)
  have hmem : (q, job.id) ∈ st.pushed := List.count_pos_iff.mp (by omega)
  refine ⟨by omega, by omega, by omega, inv.plain q job.id hmem⟩

/-- A letter leaves the list: its job is wherever `l` has it, with the record of `store`,
or in the book of finished jobs. -/
theorem take (inv : Inv st) {job : Job} {s' store : Store} {w : List String} {finished : List (String × String)}
    (h : Takes st.store q job s')
    (hlanes : lanes store = Function.update (lanes s') q { lanes s' q with waiting := w })
    (hw : ∀ id, id ≠ job.id → w.count id = (lanes st.store q).waiting.count id)
    (hfinished : ∀ p, p ≠ (q, job.id) → finished.count p = st.finished.count p)
    (hone : w.count job.id + finished.count (q, job.id) = 1)
    (hrecord : ∀ q' id, Plain id → ¬(q = q' ∧ job.id = id) → record store q' id = record s' q' id)
    (hhere : (record store q job.id).isSome ↔ 0 < w.count job.id)
    (hown : ∀ r, record store q job.id = some r → ∃ job', r = .job job' ∧ job'.id = job.id) :
    Inv { st with store, finished } := by
  obtain ⟨hlive, hdead, hfin, hid⟩ := inv.only_dead h
  obtain ⟨a, b, error, failedAt, hletters, hs', hrec⟩ := h
  have hids : ∀ id, (lanes st.store q).deadIds.count id =
      ((a ++ b).filterMap Payload.writtenId).count id + if job.id = id then 1 else 0 := by
    intro id
    rw [Lanes.deadIds, hletters]
    simp only [List.filterMap_append, List.filterMap_cons, Payload.writtenId, List.count_append,
      List.count_cons, beq_iff_eq]
    omega
  have hlanes' : lanes store = Function.update (lanes st.store) q
      { lanes st.store q with waiting := w, dead := a ++ b } := by
    rw [hlanes, hs', Function.update_self, Function.update_idem]
  unfold Lanes.live at hlive
  refine inv.move hid hlanes' ?_ ?_ (fun _ _ => le_rfl) ?_ rfl hfinished (fun _ _ => le_rfl) ?_ ?_ ?_ hown
    (inv.held q job.id)
  · intro id' h'
    simp only [Lanes.live, hw id' h']
  · intro id' h'
    rw [hids id', if_neg (Ne.symm h')]
    rfl
  · intro q' id' hid' h'
    show record store q' id' = _
    rw [hrecord q' id' hid' h', hrec]
  · intro item hitem
    apply inv.letters q item
    rw [hletters]
    rcases List.mem_append.mp hitem with h' | h'
    · exact List.mem_append_left _ h'
    · exact List.mem_append_right _ (List.mem_cons_of_mem _ h')
  · have hhere := hids job.id
    rw [if_pos rfl] at hhere
    simp only [Lanes.live, Lanes.deadIds] at hhere hdead ⊢
    omega
  · show (record store q job.id).isSome ↔ _
    simp only [hhere, Lanes.live]
    omega

theorem redriveJob (inv : Inv st) {job : Job} {s' : Store} (h : Takes st.store q job s') :
    Inv { st with store := Queue.redriveJob q job s' } := by
  obtain ⟨hlive, -, hfinished, hid⟩ := inv.only_dead h
  have hwaiting : (lanes s' q).waiting = (lanes st.store q).waiting := by
    obtain ⟨a, b, error, failedAt, -, hs', -⟩ := h
    rw [hs', Function.update_self]
  have hset : ∀ q' id', Plain id' → record (Queue.redriveJob q job s') q' id' =
      if q = q' ∧ job.id = id' then some (.job { job with attemptsMade := 0 }) else record s' q' id' :=
    fun q' id' hid' => record_setJob s' q hid _ q' hid'
  have hhere := hset q job.id hid
  rw [if_pos ⟨rfl, rfl⟩] at hhere
  unfold Lanes.live at hlive
  apply inv.take h (lanes_redriveJob s' q job)
  · intro id' h'
    rw [hwaiting, List.count_cons_of_ne (Ne.symm h')]
  · exact fun _ _ => rfl
  · rw [hwaiting, List.count_cons_self]
    omega
  · intro q' id' hid' h'
    rw [hset q' id' hid', if_neg h']
  · rw [hhere, hwaiting, List.count_cons_self]
    simp
  · intro r hr
    rw [hhere] at hr
    exact ⟨_, (Option.some.inj hr).symm, rfl⟩

theorem discard (inv : Inv st) {job : Job} {s' : Store} (h : Takes st.store q job s') :
    Inv { st with store := s'.deleteJob (jobKey q job.id), finished := (q, job.id) :: st.finished } := by
  obtain ⟨hlive, -, hfinished, hid⟩ := inv.only_dead h
  have hwaiting : (lanes s' q).waiting = (lanes st.store q).waiting := by
    obtain ⟨a, b, error, failedAt, -, hs', -⟩ := h
    rw [hs', Function.update_self]
  have hlanes : lanes (s'.deleteJob (jobKey q job.id)) =
      Function.update (lanes s') q { lanes s' q with waiting := (lanes s' q).waiting } := by
    rw [lanes_deleteJob]
    exact (Function.update_eq_self q (lanes s')).symm
  have hnone : record (s'.deleteJob (jobKey q job.id)) q job.id = none := by
    rw [record_deleteJob _ _ hid _ hid, if_pos ⟨rfl, rfl⟩]
  unfold Lanes.live at hlive
  apply inv.take h hlanes
  · intro id' _
    rw [hwaiting]
  · intro p hp
    exact List.count_cons_of_ne (Ne.symm hp)
  · rw [hwaiting, List.count_cons_self]
    omega
  · intro q' id' hid' h'
    rw [record_deleteJob _ _ hid _ hid', if_neg h']
  · rw [hnone, hwaiting]
    simp only [Option.isSome_none, Bool.false_eq_true, false_iff]
    omega
  · intro r hr
    rw [hnone] at hr
    cases hr

theorem redriveLoop (inv : Inv st) (hread : ∀ item ∈ (lanes st.store q).dead, item.parse.isSome) (fuel : Nat) :
    Inv { st with store := (Queue.redriveLoop q fuel st.store).2 } := by
  induction fuel generalizing st with
  | zero => exact inv
  | succ fuel ih =>
    rcases List.eq_nil_or_concat' (lanes st.store q).dead with hnil | ⟨d, item, hdead⟩
    · rw [redriveLoop_nil (fuel + 1) hnil]
      exact inv
    · obtain ⟨job, hparse⟩ := Option.isSome_iff_exists.mp (hread item (by rw [hdead]; simp))
      rw [redriveLoop_snoc fuel hdead, hparse]
      have htakes := takes_rpop hdead hparse
      apply ih (inv.redriveJob htakes)
      intro item' hitem'
      apply hread item'
      have hlanes : (lanes (Queue.redriveJob q job (st.store.onDlqs fun dlqs => (rpop (dlqKey q) dlqs).2))
          q).dead = d := by
        rw [lanes_redriveJob, Function.update_self, lanes_rpop_dlq, Function.update_self, hdead,
          List.dropLast_concat]
      rw [hdead]
      exact List.mem_append_left _ (hlanes ▸ hitem')

/-- Every operation a run may take keeps the books. -/
theorem apply (inv : Inv st) {op : Op} (hallows : st.Allows op) (hread : st.Readable op) :
    Inv (st.apply op) := by
  cases op with
  | push cfg id now queue data traceparent baggage => exact inv.pushJob hallows.1 hallows.2
  | pushJob job => exact inv.pushJob hallows.1 hallows.2
  | pushFifo cfg id now queue data groupId traceparent baggage => exact inv.pushJob hallows.1 hallows.2
  | pushDelayed cfg id now queue data delayMs traceparent baggage =>
    exact inv.pushDelayed hallows.1 hallows.2
  | pop queue => exact inv.pop queue
  | ack queue jobId => exact inv.ack hallows
  | nack configs now queue jobId error => exact inv.nack hallows configs now error
  | requeue queue jobId => exact inv.requeue hallows
  | retryInline queue job => exact inv.retryInline hallows
  | exhaustInline queue job error now => exact inv.moveToDlq hallows error now
  | moveDelayedToWaiting now queue => exact inv.moveDelayedToWaiting now queue
  | dlqRedrive queue => exact inv.redriveLoop hread _
  | dlqRedriveMessage queue messageId =>
    simp only [State.apply, dlqRedriveMessage]
    rcases dlqFindAndRemove_cases messageId (inv.letters queue) with h | ⟨job, s', h, -, htakes⟩
    · simp only [h]
      exact inv
    · simp only [h]
      exact inv.redriveJob htakes
  | dlqDiscardMessage queue messageId =>
    simp only [State.apply, dlqDiscardMessage]
    rcases dlqFindAndRemove_cases messageId (inv.letters queue) with
      h | ⟨job, s', h, rfl, htakes⟩
    · simp only [h]
      exact inv
    · simp only [h]
      exact inv.discard htakes

end Inv

/-- In every run whose bulk redrives find only items they can read back, no job is lost,
duplicated or left without its record. -/
theorem jobs_conserved (st : State) (h : (runs State.Readable).Reachable st) : Conserved st := by
  have inv : Inv st := by
    apply h.invariant (I := Inv)
    · rintro st rfl
      exact Inv.empty
    · rintro st st' - inv ⟨op, hallows, hread, rfl⟩
      exact inv.apply hallows hread
  exact inv.conserved

/-! ### Two runs -/

def nested : Nat → Value
  | 0 => .null
  | n + 1 => .array [nested n]

/-- A job with one attempt. -/
def oneShot (data : Value) : Job := .newWithGroup "j" 0 "mail" data 1 1000 none none none

/-- Pushed, delivered, failed, redriven. -/
def redriven (data : Value) : State :=
  [.pushJob (oneShot data), .pop "mail", .nack [] 5 "mail" "j" "boom", .dlqRedrive "mail"].foldl State.apply
    .empty

theorem reachable_redriven {condition : State → Op → Prop} {data : Value}
    (h1 : condition .empty (.pushJob (oneShot data)))
    (h2 : condition (State.empty.apply (.pushJob (oneShot data))) (.pop "mail"))
    (h3 : condition ((State.empty.apply (.pushJob (oneShot data))).apply (.pop "mail"))
      (.nack [] 5 "mail" "j" "boom"))
    (h4 : condition (((State.empty.apply (.pushJob (oneShot data))).apply (.pop "mail")).apply
      (.nack [] 5 "mail" "j" "boom")) (.dlqRedrive "mail")) :
    (runs condition).Reachable (redriven data) := by
  have hplain : Plain "j" := by decide
  have hstart : (runs condition).Reachable .empty := .init rfl
  have hpush := hstart.step ⟨.pushJob (oneShot data), ⟨hplain, List.not_mem_nil⟩, h1, rfl⟩
  have hpop := hpush.step ⟨.pop "mail", trivial, h2, rfl⟩
  have hnack := hpop.step ⟨.nack [] 5 "mail" "j" "boom", List.mem_singleton_self _, h3, rfl⟩
  exact hnack.step ⟨.dlqRedrive "mail", trivial, h4, rfl⟩

theorem jobs_conserved_redriven : Conserved (redriven (nested 125)) := by
  apply jobs_conserved
  apply reachable_redriven trivial trivial trivial
  show ∀ item ∈ Lanes.dead _, item.parse.isSome
  decide +kernel

/-- One container more, and the redrive loses the job. -/
theorem jobs_lost_deep : ∃ st, (runs fun _ _ => True).Reachable st ∧ ¬Conserved st := by
  refine ⟨redriven (nested 126), reachable_redriven trivial trivial trivial trivial, ?_⟩
  intro h
  have hone := (h "mail" "j" (by decide)).1
  revert hone
  decide +kernel

end Iii.Queue
