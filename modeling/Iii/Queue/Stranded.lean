import Iii.Queue.Tasks

/-! Where a job can be left behind.

A job that is being delivered is in the hand of one task: its id is in a local variable,
and of the lists only the active one has it, which nothing ever delivers from. The
books balance over lanes and hands. So a task that is dropped with a job in its hand
leaves that job behind, and a restart drops every task; in the runs that drop tasks
only with empty hands, and restart only from a saved copy that is up to date, no job is
ever left behind. -/
namespace Iii.Queue.Tasks
open Lib Store

/-! ### Hands -/

/-- The record this stage is about to delete belongs to a dead letter. -/
def Stage.burying : Stage → List String
  | .buryDelete jobId => [jobId]
  | _ => []

def Place.burying : Place → List String
  | .inline stage => stage.burying
  | _ => []

def gather (f : Place → List String) (g : Stage → List String) (st : State) : List (String × String) :=
  st.workers.flatMap (fun w => (f w.place).map (w.queue, ·)) ++
    st.handlers.flatMap fun h => (g h.stage).map (h.queue, ·)

def State.hands (st : State) : List (String × String) := gather Place.hand Stage.hand st
def State.burying (st : State) : List (String × String) := gather Place.burying Stage.burying st

theorem count_pairs (q q' : String) (l : List String) (id : String) :
    (l.map (q, ·)).count (q', id) = if q = q' then l.count id else 0 := by
  induction l with
  | nil => simp
  | cons a rest ih =>
    rw [List.map_cons, List.count_cons, List.count_cons, ih]
    by_cases h : q = q' <;> simp [h]

/-- What one lane-and-hand pair holds of a job. -/
def around (s : Store) (q : String) (hand : List String) (id : String) : Nat :=
  (lanes s q).waiting.count id + (members (lanes s q).delayed).count id + hand.count id

/-- A step of one task that loses nothing: what leaves its hand is in a lane of its queue,
and the other way round. -/
structure Balanced (q : String) (s s' : Store) (old new : List String) : Prop where
  here : ∀ id, around s' q new id = around s q old id
  dead : (lanes s' q).dead = (lanes s q).dead
  other : ∀ q', q' ≠ q → lanes s' q' = lanes s q'
  jobs : s'.jobs = s.jobs

namespace Balanced
variable {q : String} {s : Store} {old new : List String}

/-- The store is left alone. -/
theorem still (h : ∀ id, new.count id = old.count id) : Balanced q s s old new :=
  ⟨fun id => by rw [around, around, h], rfl, fun _ _ => rfl, rfl⟩

theorem of_update {s' : Store} {l : Lanes} (hlanes : lanes s' = Function.update (lanes s) q l)
    (here : ∀ id, l.waiting.count id + (members l.delayed).count id + new.count id = around s q old id)
    (dead : l.dead = (lanes s q).dead) (jobs : s'.jobs = s.jobs) : Balanced q s s' old new := by
  refine ⟨?_, ?_, ?_, jobs⟩
  · intro id
    rw [around, hlanes, Function.update_self, here]
  · rw [hlanes, Function.update_self, dead]
  · intro q' h
    rw [hlanes, Function.update_of_ne h]

theorem lpush_waiting (id : String) (hand : List String) :
    Balanced q s (s.onLists (lpush (waitingKey q) id)) (id :: hand) hand :=
  of_update (lanes_lpush_waiting s q id) (fun id' => by simp only [around, List.count_cons]; omega) rfl rfl

theorem rpush_waiting (id : String) (hand : List String) :
    Balanced q s (s.onLists (rpush (waitingKey q) id)) (id :: hand) hand :=
  of_update (lanes_rpush_waiting s q id)
    (fun id' => by simp only [around, List.count_append, List.count_cons, List.count_nil]; omega) rfl rfl

theorem rpop_waiting {rest : List String} {id : String} (hand : List String)
    (h : items s.lists (waitingKey q) = rest ++ [id]) :
    Balanced q s (s.onLists fun lists => (rpop (waitingKey q) lists).2) hand (id :: hand) := by
  have hwaiting : (lanes s q).waiting = rest ++ [id] := h
  apply of_update (lanes_rpop_waiting s q)
  · intro id'
    simp only [around, hwaiting, List.dropLast_concat, List.count_append, List.count_cons, List.count_nil]
    omega
  · rfl
  · rfl

/-- The active list is no place to deliver from. -/
theorem active {f : Lists String → Lists String} {g : List String → List String}
    (h : ∀ lists key, items (f lists) key = if activeKey q = key then g (items lists key) else items lists key)
    (hnew : ∀ id, new.count id = old.count id) : Balanced q s (s.onLists f) old new :=
  of_update (lanes_onLists_active s q f g h) (fun id => by rw [around, hnew]) rfl rfl

theorem lrem_active (id : String) (hand : List String) :
    Balanced q s (s.onLists (lrem (activeKey q) 1 id)) hand hand :=
  active (g := (·.erase id)) (fun _ _ => items_lrem_one ..) fun _ => rfl

theorem lpush_active (id : String) (hand : List String) :
    Balanced q s (s.onLists (lpush (activeKey q) id)) hand hand :=
  active (fun _ _ => items_lpush ..) fun _ => rfl

theorem zrem_delayed {id : String} (hmem : (zrem (delayedKey q) id s.sortedSets).1 = true)
    (hone : (members (lanes s q).delayed).count id ≤ 1) :
    Balanced q s (s.onSets fun sets => (zrem (delayedKey q) id sets).2) [] [id] := by
  have hpos : 0 < (members (lanes s q).delayed).count id := by
    obtain ⟨e, he, heq⟩ := List.any_eq_true.mp hmem
    apply List.count_pos_iff.mpr
    rw [← of_decide_eq_true heq]
    exact List.mem_map_of_mem he
  apply of_update (lanes_zrem s q id)
  · intro id'
    simp only [around, count_members_filter, List.count_cons, List.count_nil, beq_iff_eq]
    by_cases h : id = id'
    · subst h
      simp only [if_true]
      omega
    · simp only [h, if_false]
  · rfl
  · rfl

theorem zadd_delayed {id : String} (score : Int) (hnone : (members (lanes s q).delayed).count id = 0) :
    Balanced q s (s.onSets (zadd (delayedKey q) score id)) [id] [] := by
  apply of_update (lanes_zadd s q id score)
  · intro id'
    simp only [around, count_members_insertScore, List.count_cons, List.count_nil, beq_iff_eq]
    by_cases h : id = id'
    · subst h
      simp [hnone]
    · simp [h]
  · rfl
  · rfl

end Balanced

/-! ### What a stage of the handling does -/

/-- A retried job goes back under its own id. -/
def Stage.Sound : Stage → Prop
  | .nackRem jobId job _ | .nackSet jobId job _ => job.id = jobId
  | _ => True

def Place.Sound : Place → Prop
  | .inline stage => stage.Sound
  | _ => True

/-- All a step of one task can do to a job in its hand. -/
inductive Effect (q : String) (s : Store) (old : List String) (burying : List String) :
    Store → List String → List String → List String → Prop
  | carry (s' : Store) (new : List String) (h : Balanced q s s' old new) : Effect q s old burying s' new [] []
  | rewrite (id : String) (job : Job) (hold : old = [id]) (hjob : job.id = id) :
      Effect q s old burying (s.setJob (jobKey q id) (.job job)) [id] [] []
  | bury (job : Job) (error : String) (failedAt : Nat) (hold : old = [job.id]) :
      Effect q s old burying (s.onDlqs (lpush (dlqKey q) (.failed job error failedAt))) [] [job.id] []
  | finish (id : String) (hold : old = [id]) :
      Effect q s old burying (s.deleteJob (jobKey q id)) [] [] [id]
  | clear (id : String) (hold : old = []) (hburying : burying = [id]) :
      Effect q s old burying (s.deleteJob (jobKey q id)) [] [] []

theorem Stage.Step.effect {configs : Configs} {now : Nat} {q : String} {inline : Bool} {stage stage' : Stage}
    {s s' : Store} {acked : List String} (hstep : Stage.Step configs now q inline stage s stage' s' acked)
    (hrecord : ∀ id ∈ stage.hand, ∃ job, record s q id = some (.job job) ∧ job.id = id)
    (hdelayed : ∀ id ∈ stage.hand, (members (lanes s q).delayed).count id = 0) (hsound : stage.Sound) :
    Effect q s stage.hand stage.burying s' stage'.hand stage'.burying acked ∧ stage'.Sound := by
  cases hstep with
  | ok job _ => exact ⟨.carry _ _ (.still fun _ => rfl), trivial⟩
  | ackRem jobId _ => exact ⟨.carry _ _ (.lrem_active jobId [jobId]), trivial⟩
  | ackDelete jobId _ => exact ⟨.finish jobId rfl, trivial⟩
  | error job error _ h => exact ⟨.carry _ _ (.still fun _ => rfl), trivial⟩
  | nackMissing jobId error _ h =>
    obtain ⟨job, hjob, -⟩ := hrecord jobId (List.mem_singleton_self _)
    exact absurd (h.symm.trans hjob) (by simp)
  | nackBroken jobId error _ value h =>
    obtain ⟨job, hjob, -⟩ := hrecord jobId (List.mem_singleton_self _)
    exact absurd (h.symm.trans hjob) (by simp)
  | nackExhausted jobId error _ job h hexhausted =>
    obtain ⟨job', hjob, hid⟩ := hrecord jobId (List.mem_singleton_self _)
    obtain rfl : job = job' := by simpa using h.symm.trans hjob
    have hid' : (applySubscriptionOverrides configs job).incrementAttempts.id = jobId :=
      (applySubscriptionOverrides_id configs job).trans hid
    refine ⟨.carry _ _ (.still fun id => ?_), trivial⟩
    simp only [Stage.hand, hid']
  | nackRetry jobId error _ job job' h hjob' hexhausted =>
    obtain ⟨job'', hjob, hid⟩ := hrecord jobId (List.mem_singleton_self _)
    obtain rfl : job = job'' := by simpa using h.symm.trans hjob
    have hid' : job'.id = jobId := by
      rw [hjob']
      exact (applySubscriptionOverrides_id configs job).trans hid
    exact ⟨.carry _ _ (.still fun _ => rfl), hid'⟩
  | nackRem jobId job processAt _ => exact ⟨.carry _ _ (.lrem_active jobId [jobId]), hsound⟩
  | nackSet jobId job processAt _ =>
    have hid : { job with processAt := some processAt }.id = jobId := hsound
    exact ⟨.rewrite jobId _ rfl hid, trivial⟩
  | nackAdd jobId processAt _ =>
    exact ⟨.carry _ _ (.zadd_delayed _ (hdelayed jobId (List.mem_singleton_self _))), trivial⟩
  | exhausted job error _ h hexhausted => exact ⟨.carry _ _ (.still fun _ => rfl), trivial⟩
  | buryRem job error _ => exact ⟨.carry _ _ (.lrem_active job.id [job.id]), trivial⟩
  | buryPush job error _ => exact ⟨.bury job error now rfl, trivial⟩
  | buryDelete jobId _ => exact ⟨.clear jobId rfl rfl, trivial⟩
  | retry job _ h hexhausted => exact ⟨.carry _ _ (.still fun _ => rfl), trivial⟩
  | awake job _ => exact ⟨.rewrite job.id job rfl rfl, trivial⟩

/-- A worker only moves jobs between its hand, the lanes of its queue and the handlers it
spawns. -/
theorem Worker.Step.balanced {configs : Configs} {now : Nat} {handlers spawned : List Handler} {w : Worker}
    {place place' : Place} {s s' : Store}
    (hstep : Worker.Step configs now handlers w place s place' s' spawned)
    (hrecord : ∀ id ∈ place.hand, ∃ job, record s w.queue id = some (.job job) ∧ job.id = id)
    (hone : ∀ id, (members (lanes s w.queue).delayed).count id ≤ 1) (hsound : place.Sound) :
    Balanced w.queue s s' place.hand (place'.hand ++ spawned.flatMap fun h => h.stage.hand) ∧
      place'.burying = [] ∧ place'.Sound ∧
      ∀ h ∈ spawned, h.queue = w.queue ∧ h.stage.burying = [] ∧ h.stage.Sound := by
  have hnone : ∀ h ∈ ([] : List Handler), h.queue = w.queue ∧ h.stage.burying = [] ∧ h.stage.Sound :=
    fun h hh => absurd hh List.not_mem_nil
  cases hstep with
  | tick _ => exact ⟨.still fun _ => rfl, rfl, trivial, hnone⟩
  | moveEnd _ => exact ⟨.still fun _ => rfl, rfl, trivial, hnone⟩
  | moveRem jobId ready _ h => exact ⟨.zrem_delayed h (hone jobId), rfl, trivial, hnone⟩
  | moveGone jobId ready _ h => exact ⟨.still fun _ => rfl, rfl, trivial, hnone⟩
  | movePush jobId ready _ => exact ⟨.rpush_waiting jobId [], rfl, trivial, hnone⟩
  | full skipped _ hmode h => exact ⟨.still fun _ => by simp [Place.hand], rfl, trivial, hnone⟩
  | empty skipped _ h => exact ⟨.still fun _ => by simp [Place.hand], rfl, trivial, hnone⟩
  | pop skipped rest jobId _ hroom h =>
    rw [List.flatMap_nil, List.append_nil]
    exact ⟨.rpop_waiting skipped h, rfl, trivial, hnone⟩
  | activate jobId skipped _ =>
    rw [List.flatMap_nil, List.append_nil]
    exact ⟨.lpush_active jobId _, rfl, trivial, hnone⟩
  | unread jobId skipped _ h =>
    obtain ⟨job, hjob, -⟩ := hrecord jobId (List.mem_cons_self ..)
    have hget : s.getJob (jobKey w.queue jobId) = some (.job job) := hjob
    rw [hget] at h
    exact absurd h (by simp [Record.read])
  | read jobId skipped _ job h =>
    obtain ⟨job', hjob, hid⟩ := hrecord jobId (List.mem_cons_self ..)
    have hget : s.getJob (jobKey w.queue jobId) = some (.job job') := hjob
    rw [hget] at h
    obtain rfl : job' = job := by simpa [Record.read] using h
    refine ⟨.still fun id => ?_, rfl, trivial, hnone⟩
    simp [Place.hand, hid]
  | permit job skipped _ hmode h =>
    refine ⟨.still fun id => ?_, rfl, trivial, ?_⟩
    · simp only [Place.hand, List.flatMap_cons, List.flatMap_nil, Tasks.spawned, Stage.hand,
        List.count_append, List.count_cons, List.count_nil]
      simp
    · intro h' hmem
      rw [List.mem_singleton.mp hmem]
      exact ⟨rfl, rfl, trivial⟩
  | noPermit job _ hmode h => exact ⟨.still fun _ => by simp [Place.hand], rfl, trivial, hnone⟩
  | putBack jobId _ => exact ⟨.lpush_waiting jobId [], rfl, trivial, hnone⟩
  | putBackRem jobId _ => exact ⟨.lrem_active jobId [], rfl, trivial, hnone⟩
  | skip job skipped _ hmode h =>
    refine ⟨.still fun id => ?_, rfl, trivial, hnone⟩
    simp only [Place.hand, List.flatMap_nil, List.append_nil, List.count_append, List.count_cons,
      List.count_nil]
    omega
  | start job skipped _ hmode h =>
    refine ⟨.still fun id => ?_, rfl, trivial, ?_⟩
    · simp only [Place.hand, List.flatMap_cons, List.flatMap_nil, Tasks.spawned, Stage.hand, if_true,
        applySubscriptionOverrides_id, List.count_append, List.count_cons, List.count_nil]
      omega
    · intro h' hmem
      rw [List.mem_singleton.mp hmem]
      exact ⟨rfl, rfl, trivial⟩
  | returnPush jobId skipped _ =>
    rw [List.flatMap_nil, List.append_nil]
    exact ⟨.lpush_waiting jobId skipped, rfl, trivial, hnone⟩
  | returnRem jobId skipped _ =>
    rw [List.flatMap_nil, List.append_nil]
    exact ⟨.lrem_active jobId skipped, rfl, trivial, hnone⟩
  | returned _ => exact ⟨.still fun _ => rfl, rfl, trivial, hnone⟩
  | inline job _ hmode =>
    refine ⟨.still fun id => ?_, rfl, trivial, hnone⟩
    simp [Place.hand, Stage.hand, applySubscriptionOverrides_id]
  | inlineDone _ => exact ⟨.still fun _ => rfl, rfl, trivial, hnone⟩

/-! ### The books over lanes and hands -/

/-- How often a job is where a pop will find it, or in a hand. -/
def State.live (st : State) (q id : String) : Nat :=
  (lanes st.store q).waiting.count id + (members (lanes st.store q).delayed).count id
    + st.hands.count (q, id)

def State.dead (st : State) (q id : String) : Nat := (lanes st.store q).deadIds.count id

/-- The hands after a step that took `old` out of one hand and put `new` into it. -/
def Exchanged (st st' : State) (q : String) (old new : List String) : Prop :=
  ∀ p, st'.hands.count p + (old.map (q, ·)).count p = st.hands.count p + (new.map (q, ·)).count p

def Recorded (s : Store) (q id : String) : Prop := ∃ job, record s q id = some (.job job) ∧ job.id = id

structure Inv (st : State) : Prop where
  total : ∀ q id, st.live q id + st.dead q id + st.acked.count (q, id) = st.pushed.count (q, id)
  once : st.pushed.Nodup
  plain : ∀ q id, (q, id) ∈ st.pushed → Plain id
  recorded : ∀ q id, 0 < st.live q id → Recorded st.store q id
  only : ∀ q id, Plain id → (record st.store q id).isSome →
    0 < st.live q id ∨ 0 < st.dead q id ∨ ∃ p ∈ st.pushing, (p.job.queue, p.job.id) = (q, id)
  pushing : ∀ p ∈ st.pushing, Plain p.job.id ∧ (p.job.queue, p.job.id) ∉ st.pushed ∧
    Recorded st.store p.job.queue p.job.id
  distinct : (st.pushing.map fun p => (p.job.queue, p.job.id)).Nodup
  buried : ∀ q id, (q, id) ∈ st.burying → 0 < st.dead q id
  keys : ∀ m ∈ st.store.jobs, ∃ q id, Plain id ∧ m.1 = jobKey q id
  workers : ∀ w ∈ st.workers, w.place.Sound
  handlers : ∀ h ∈ st.handlers, h.stage.Sound

namespace Inv
variable {st st' : State}

theorem empty : Inv .empty where
  total _ _ := by
    simp [State.empty, State.live, State.dead, State.hands, gather, Store.empty, lanes, Lanes.deadIds, members]
  once := List.nodup_nil
  plain _ _ h := by cases h
  recorded _ _ h := by
    simp [State.empty, State.live, State.hands, gather, Store.empty, lanes, members] at h
  only _ _ _ h := by simp [State.empty, Store.empty, record, getJob] at h
  pushing _ h := by cases h
  distinct := List.nodup_nil
  buried _ _ h := by cases h
  keys _ h := by cases h
  workers _ h := by cases h
  handlers _ h := by cases h

/-- No job is in two places. -/
theorem at_most_once (inv : Inv st) (q id : String) :
    st.live q id + st.dead q id + st.acked.count (q, id) ≤ 1 := by
  rw [inv.total]
  exact List.nodup_iff_count_le_one.mp inv.once (q, id)

variable {q id : String}

theorem plain_of_live (inv : Inv st) (h : 0 < st.live q id + st.dead q id) : Plain id := by
  have htotal := inv.total q id
  exact inv.plain q id (List.count_pos_iff.mp (by omega))

/-- What a step of one task leaves as it was, and the stages it leaves sound. -/
structure Framed (st st' : State) : Prop where
  pushed : st'.pushed = st.pushed
  pushing : st'.pushing = st.pushing
  workers : ∀ w ∈ st'.workers, w.place.Sound
  handlers : ∀ h ∈ st'.handlers, h.stage.Sound

/-- A job that a step does not touch. -/
structure Same (st st' : State) (q id : String) : Prop where
  live : st'.live q id = st.live q id
  dead : st'.dead q id = st.dead q id
  acked : st'.acked.count (q, id) = st.acked.count (q, id)
  record : Plain id → record st'.store q id = record st.store q id
  burying : (q, id) ∈ st'.burying → (q, id) ∈ st.burying

/-- The books of one job. -/
structure Booked (st : State) (q id : String) : Prop where
  total : st.live q id + st.dead q id + st.acked.count (q, id) = st.pushed.count (q, id)
  recorded : 0 < st.live q id → Recorded st.store q id
  only : Plain id → (record st.store q id).isSome →
    0 < st.live q id ∨ 0 < st.dead q id ∨ ∃ p ∈ st.pushing, (p.job.queue, p.job.id) = (q, id)
  buried : (q, id) ∈ st.burying → 0 < st.dead q id

theorem of_booked (inv : Inv st) (hframed : Framed st st') (hbooked : ∀ q id, Booked st' q id)
    (hrecord : ∀ p ∈ st.pushing, record st'.store p.job.queue p.job.id = record st.store p.job.queue p.job.id)
    (hkeys : ∀ m ∈ st'.store.jobs, ∃ q id, Plain id ∧ m.1 = jobKey q id) : Inv st' where
  total q id := (hbooked q id).total
  once := hframed.pushed ▸ inv.once
  plain := hframed.pushed ▸ inv.plain
  recorded q id := (hbooked q id).recorded
  only q id := (hbooked q id).only
  pushing p hp := by
    rw [hframed.pushing] at hp
    rw [hframed.pushed, Recorded, hrecord p hp]
    exact inv.pushing p hp
  distinct := hframed.pushing ▸ inv.distinct
  buried q id := (hbooked q id).buried
  keys := hkeys
  workers := hframed.workers
  handlers := hframed.handlers

theorem booked_of_same (inv : Inv st) (hframed : Framed st st') (hsame : Same st st' q id) : Booked st' q id where
  total := by rw [hsame.live, hsame.dead, hsame.acked, hframed.pushed, inv.total]
  recorded h := by
    rw [hsame.live] at h
    rw [Recorded, hsame.record (inv.plain_of_live (q := q) (by omega))]
    exact inv.recorded q id h
  only hid h := by
    rw [hsame.live, hsame.dead, hframed.pushing]
    exact inv.only q id hid (hsame.record hid ▸ h)
  buried h := by
    rw [hsame.dead]
    exact inv.buried q id (hsame.burying h)

/-- A step that loses nothing and writes no record. -/
theorem carry (inv : Inv st) (hframed : Framed st st') (hjobs : st'.store.jobs = st.store.jobs)
    (hsame : ∀ q id, Same st st' q id) : Inv st' := by
  apply inv.of_booked hframed
  · exact fun q id => inv.booked_of_same hframed (hsame q id)
  · exact fun p hp => (hsame _ _).record (inv.pushing p hp).1
  · rw [hjobs]
    exact inv.keys

/-- A step that touches one pushed job. -/
theorem change (inv : Inv st) (hframed : Framed st st') (hmem : (q, id) ∈ st.pushed)
    (hsame : ∀ q' id', (q', id') ≠ (q, id) → Same st st' q' id') (hbooked : Booked st' q id)
    (hkeys : ∀ m ∈ st'.store.jobs, ∃ q id, Plain id ∧ m.1 = jobKey q id) : Inv st' := by
  refine inv.of_booked hframed ?_ ?_ hkeys
  · intro q' id'
    by_cases h : (q', id') = (q, id)
    · obtain ⟨rfl, rfl⟩ := Prod.mk.inj h
      exact hbooked
    · exact inv.booked_of_same hframed (hsame q' id' h)
  · intro p hp
    obtain ⟨hid, hnew, -⟩ := inv.pushing p hp
    exact (hsame _ _ fun h => hnew (h ▸ hmem)).record hid

/-- The books of a store and a set of hands, from those of a task's own queue and hand. -/
theorem live_of_balanced {old new : List String} (hb : Balanced q st.store st'.store old new)
    (hhands : Exchanged st st' q old new) (q' id : String) :
    st'.live q' id = st.live q' id ∧ st'.dead q' id = st.dead q' id := by
  have hcount := hhands (q', id)
  rw [count_pairs, count_pairs] at hcount
  by_cases hq : q = q'
  · subst hq
    have hhere := hb.here id
    simp only [if_true] at hcount
    refine ⟨?_, by rw [State.dead, State.dead, Lanes.deadIds, hb.dead, Lanes.deadIds]⟩
    unfold around at hhere
    unfold State.live
    omega
  · rw [State.live, State.dead, hb.other q' (Ne.symm hq)]
    simp only [hq, if_false, Nat.add_zero] at hcount
    rw [hcount]
    exact ⟨rfl, rfl⟩

theorem balanced (inv : Inv st) {o n : List String} (hframed : Framed st st')
    (hb : Balanced q st.store st'.store o n) (hhands : Exchanged st st' q o n)
    (hacked : st'.acked = st.acked) (hburying : ∀ p ∈ st'.burying, p ∈ st.burying) : Inv st' := by
  refine inv.carry hframed hb.jobs fun q' id => ?_
  obtain ⟨hlive, hdead⟩ := live_of_balanced hb hhands q' id
  refine ⟨hlive, hdead, by rw [hacked], ?_, hburying _⟩
  intro _
  rw [record, record, getJob, getJob, hb.jobs]

theorem hand_of_exchanged {new : List String} (h : Exchanged st st' q [id] new) :
    (st.hands.count (q, id) + new.count id = st'.hands.count (q, id) + 1) ∧
      ∀ p, p ≠ (q, id) → st'.hands.count p = st.hands.count p + (new.map (q, ·)).count p := by
  constructor
  · have hhere := h (q, id)
    rw [count_pairs, count_pairs] at hhere
    simp at hhere
    omega
  · intro p hp
    have hother := h p
    have hzero : ([id].map (q, ·)).count p = 0 := by
      simp [Ne.symm hp]
    rw [hzero, Nat.add_zero] at hother
    exact hother

/-- A job in a hand was pushed. -/
theorem pushed_of_hand (inv : Inv st) (h : (q, id) ∈ st.hands) :
    0 < st.live q id ∧ (q, id) ∈ st.pushed := by
  have hcount := List.count_pos_iff.mpr h
  have hpos : 0 < st.live q id := by
    unfold State.live
    omega
  have htotal := inv.total q id
  exact ⟨hpos, List.count_pos_iff.mp (by omega)⟩

/-- The lanes are left alone, and one pushed job has its record written or deleted. -/
theorem written (inv : Inv st) {r : Option Record} (hframed : Framed st st') (hmem : (q, id) ∈ st.pushed)
    (hlanes : lanes st'.store = lanes st.store)
    (hrecord : ∀ q' {id'}, Plain id' → record st'.store q' id' =
      if q = q' ∧ id = id' then r else record st.store q' id')
    (hhands : ∀ p, p ≠ (q, id) → st'.hands.count p = st.hands.count p)
    (hacked : ∀ p, p ≠ (q, id) → st'.acked.count p = st.acked.count p)
    (hburying : ∀ p ∈ st'.burying, p ∈ st.burying)
    (htotal : st'.live q id + st'.acked.count (q, id) = st.live q id + st.acked.count (q, id))
    (hrecorded : 0 < st'.live q id → ∃ job, r = some (.job job) ∧ job.id = id)
    (honly : r.isSome → 0 < st'.live q id)
    (hkeys : ∀ m ∈ st'.store.jobs, ∃ q id, Plain id ∧ m.1 = jobKey q id) : Inv st' := by
  have hhere : record st'.store q id = r := by rw [hrecord q (inv.plain q id hmem), if_pos ⟨rfl, rfl⟩]
  have hdead : ∀ q' id', st'.dead q' id' = st.dead q' id' := fun q' id' => by
    rw [State.dead, State.dead, hlanes]
  refine inv.change hframed hmem ?_ ?_ hkeys
  · intro q' id' h
    refine ⟨by rw [State.live, State.live, hlanes, hhands _ h], hdead q' id', hacked _ h, ?_, hburying _⟩
    intro hid'
    rw [hrecord q' hid', if_neg]
    rintro ⟨rfl, rfl⟩
    exact h rfl
  · refine ⟨?_, ?_, ?_, ?_⟩
    · have hold := inv.total q id
      rw [hdead, hframed.pushed]
      omega
    · rw [Recorded, hhere]
      exact hrecorded
    · rw [hhere]
      exact fun _ h => .inl (honly h)
    · rw [hdead]
      exact fun h => inv.buried q id (hburying _ h)

/-- The record of a job in a hand is written again. -/
theorem rewrite (inv : Inv st) {job : Job} (hframed : Framed st st') (hjob : job.id = id)
    (hhand : (q, id) ∈ st.hands) (hstore : st'.store = st.store.setJob (jobKey q id) (.job job))
    (hhands : Exchanged st st' q [id] [id]) (hburying : ∀ p ∈ st'.burying, p ∈ st.burying)
    (hacked : st'.acked = st.acked) : Inv st' := by
  obtain ⟨hpos, hmem⟩ := inv.pushed_of_hand hhand
  have hid := inv.plain q id hmem
  have hlanes : lanes st'.store = lanes st.store := by rw [hstore, lanes_setJob]
  have hsame : ∀ p, st'.hands.count p = st.hands.count p := fun p => Nat.add_right_cancel (hhands p)
  have hlive : st'.live q id = st.live q id := by rw [State.live, State.live, hlanes, hsame]
  apply inv.written hframed hmem hlanes (r := some (.job job)) _ (fun p _ => hsame p) _ hburying
  · rw [hlive, hacked]
  · exact fun _ => ⟨job, rfl, hjob⟩
  · intro _
    rw [hlive]
    exact hpos
  · intro m hm
    rw [hstore] at hm
    rcases Assoc.mem_insert hm with hm | rfl
    · exact inv.keys m hm
    · exact ⟨q, id, hid, rfl⟩
  · intro q' id' hid'
    rw [hstore, record_setJob _ _ hid _ _ hid']
  · intro p _
    rw [hacked]

/-- The record of a job that is in no hand and no lane any more is deleted. -/
theorem delete (inv : Inv st) (hframed : Framed st st') (hmem : (q, id) ∈ st.pushed)
    (hstore : st'.store = st.store.deleteJob (jobKey q id))
    (hhands : ∀ p, p ≠ (q, id) → st'.hands.count p = st.hands.count p)
    (hacked : ∀ p, p ≠ (q, id) → st'.acked.count p = st.acked.count p)
    (hburying : ∀ p ∈ st'.burying, p ∈ st.burying)
    (htotal : st'.live q id + st'.acked.count (q, id) = st.live q id + st.acked.count (q, id))
    (hnone : st'.live q id = 0) : Inv st' := by
  have hid := inv.plain q id hmem
  apply inv.written hframed hmem (r := none) (by rw [hstore, lanes_deleteJob]) _ hhands hacked hburying htotal
  · intro h
    omega
  · intro h
    cases h
  · intro m hm
    rw [hstore] at hm
    exact inv.keys m (List.mem_of_mem_filter hm)
  · intro q' id' hid'
    rw [hstore, record_deleteJob _ _ hid _ hid']

/-- A job in a hand is finished. -/
theorem finish (inv : Inv st) (hframed : Framed st st') (hhand : (q, id) ∈ st.hands)
    (hstore : st'.store = st.store.deleteJob (jobKey q id)) (hhands : Exchanged st st' q [id] [])
    (hburying : ∀ p ∈ st'.burying, p ∈ st.burying) (hacked : st'.acked = (q, id) :: st.acked) : Inv st' := by
  obtain ⟨hpos, hmem⟩ := inv.pushed_of_hand hhand
  have hone := inv.at_most_once q id
  obtain ⟨hhere, hother⟩ := hand_of_exchanged hhands
  have hlive : st'.live q id + 1 = st.live q id := by
    rw [State.live, State.live, hstore, lanes_deleteJob]
    simp only [List.count_nil] at hhere
    omega
  apply inv.delete hframed hmem hstore hother _ hburying
  · rw [hacked, List.count_cons_self]
    omega
  · omega
  · intro p hp
    rw [hacked]
    exact List.count_cons_of_ne (Ne.symm hp)

/-- The record of a dead letter is deleted. -/
theorem clear (inv : Inv st) (hframed : Framed st st') (hburied : (q, id) ∈ st.burying)
    (hstore : st'.store = st.store.deleteJob (jobKey q id)) (hhands : Exchanged st st' q [] [])
    (hburying : ∀ p ∈ st'.burying, p ∈ st.burying) (hacked : st'.acked = st.acked) : Inv st' := by
  have hpos := inv.buried q id hburied
  have htotal := inv.total q id
  have hmem : (q, id) ∈ st.pushed := List.count_pos_iff.mp (by omega)
  have hone := inv.at_most_once q id
  have hsame : ∀ p, st'.hands.count p = st.hands.count p := fun p => Nat.add_right_cancel (hhands p)
  have hlive : st'.live q id = st.live q id := by
    rw [State.live, State.live, hstore, lanes_deleteJob, hsame]
  apply inv.delete hframed hmem hstore (fun p _ => hsame p) (fun p _ => by rw [hacked]) hburying
  · rw [hlive, hacked]
  · omega

/-- A job leaves a hand for the dead-letter list. -/
theorem bury (inv : Inv st) {job : Job} {error : String} {failedAt : Nat} (hframed : Framed st st')
    (hhand : (q, job.id) ∈ st.hands)
    (hstore : st'.store = st.store.onDlqs (lpush (dlqKey q) (.failed job error failedAt)))
    (hhands : Exchanged st st' q [job.id] []) (hburying : ∀ p ∈ st'.burying, p ∈ st.burying ∨ p = (q, job.id))
    (hacked : st'.acked = st.acked) : Inv st' := by
  obtain ⟨hpos, hmem⟩ := inv.pushed_of_hand hhand
  obtain ⟨hhere, hother⟩ := hand_of_exchanged hhands
  have hlanes : lanes st'.store = Function.update (lanes st.store) q
      { lanes st.store q with dead := .failed job error failedAt :: (lanes st.store q).dead } := by
    rw [hstore, lanes_lpush_dlq]
  have hrecord : record st'.store = record st.store := by rw [hstore, record_onDlqs]
  have hlive : ∀ q', (lanes st'.store q').waiting = (lanes st.store q').waiting ∧
      (lanes st'.store q').delayed = (lanes st.store q').delayed := by
    intro q'
    rw [hlanes]
    by_cases h : q' = q
    · subst h
      rw [Function.update_self]
      exact ⟨rfl, rfl⟩
    · rw [Function.update_of_ne h]
      exact ⟨rfl, rfl⟩
  have hlive_here : st'.live q job.id + 1 = st.live q job.id := by
    rw [State.live, State.live, (hlive q).1, (hlive q).2]
    simp only [List.count_nil] at hhere
    omega
  have hdead_here : st'.dead q job.id = st.dead q job.id + 1 := by
    rw [State.dead, State.dead, hlanes, Function.update_self]
    exact List.count_cons_self
  refine inv.change hframed hmem ?_ ?_ (by rw [hstore]; exact inv.keys)
  · intro q' id' h
    refine ⟨?_, ?_, by rw [hacked], fun _ => by rw [hrecord], ?_⟩
    · rw [State.live, State.live, (hlive q').1, (hlive q').2, hother _ h]
      rfl
    · rw [State.dead, State.dead, hlanes]
      by_cases hq : q' = q
      · subst hq
        rw [Function.update_self]
        exact List.count_cons_of_ne fun h' => h (by rw [h'])
      · rw [Function.update_of_ne hq]
    · exact fun hp => (hburying _ hp).resolve_right h
  · refine ⟨?_, ?_, fun _ _ => .inr (.inl (by omega)), fun _ => by omega⟩
    · have htotal := inv.total q job.id
      rw [hacked, hframed.pushed]
      omega
    · intro _
      rw [Recorded, hrecord]
      exact inv.recorded q job.id hpos

theorem effect (inv : Inv st) {old burying new burying' acked : List String} {s' : Store}
    (hframed : Framed st st') (heffect : Effect q st.store old burying s' new burying' acked)
    (hstore : st'.store = s') (hhands : Exchanged st st' q old new) (hhand : ∀ id ∈ old, (q, id) ∈ st.hands)
    (hburied : ∀ id ∈ burying, (q, id) ∈ st.burying)
    (hburying : ∀ p ∈ st'.burying, p ∈ st.burying ∨ p ∈ burying'.map (q, ·))
    (hacked : st'.acked = acked.map (q, ·) ++ st.acked) : Inv st' := by
  have hold_burying : burying' = [] → ∀ p ∈ st'.burying, p ∈ st.burying := by
    rintro rfl p hp
    exact (hburying p hp).resolve_right List.not_mem_nil
  cases heffect with
  | carry s' new hb =>
    subst hstore
    exact inv.balanced hframed hb hhands hacked (hold_burying rfl)
  | rewrite id job hold hjob =>
    subst hold
    exact inv.rewrite hframed hjob (hhand id (List.mem_singleton_self _)) hstore hhands (hold_burying rfl) hacked
  | bury job error failedAt hold =>
    subst hold
    apply inv.bury hframed (hhand job.id (List.mem_singleton_self _)) hstore hhands _ hacked
    exact fun p hp => (hburying p hp).imp_right List.mem_singleton.mp
  | finish id hold =>
    subst hold
    exact inv.finish hframed (hhand id (List.mem_singleton_self _)) hstore hhands (hold_burying rfl) hacked
  | clear id hold hid =>
    subst hold hid
    exact inv.clear hframed (hburied id (List.mem_singleton_self _)) hstore hhands (hold_burying rfl) hacked

end Inv

/-! ### The hands of a state -/

variable {g : Stage → List String} {f : Place → List String} {st : State}

theorem mem_gather_worker {w : Worker} (hw : w ∈ st.workers) {id : String} (hid : id ∈ f w.place) :
    (w.queue, id) ∈ gather f g st :=
  List.mem_append_left _ (List.mem_flatMap.mpr ⟨w, hw, List.mem_map_of_mem hid⟩)

theorem mem_gather_handler {h : Handler} (hh : h ∈ st.handlers) {id : String} (hid : id ∈ g h.stage) :
    (h.queue, id) ∈ gather f g st :=
  List.mem_append_right _ (List.mem_flatMap.mpr ⟨h, hh, List.mem_map_of_mem hid⟩)

theorem flatMap_queue {q : String} {handlers : List Handler} (h : ∀ h ∈ handlers, h.queue = q) :
    (handlers.flatMap fun h => (g h.stage).map (h.queue, ·)) =
      (handlers.flatMap fun h => g h.stage).map (q, ·) := by
  induction handlers with
  | nil => rfl
  | cons h' rest ih =>
    have hrest := ih fun x hx => h x (List.mem_cons_of_mem _ hx)
    rw [List.flatMap_cons, List.flatMap_cons, List.map_append, h h' (List.mem_cons_self ..), hrest]

/-- A worker's step: its own hand and the hands of the handlers it spawned. -/
theorem gather_worker {st' : State} {a b : List Worker} {w : Worker} {place : Place} {spawned : List Handler}
    (h : st.workers = a ++ w :: b) (hworkers : st'.workers = a ++ { w with place } :: b)
    (hhandlers : st'.handlers = spawned ++ st.handlers) (hqueue : ∀ h ∈ spawned, h.queue = w.queue)
    (p : String × String) :
    (gather f g st').count p + ((f w.place).map (w.queue, ·)).count p =
      (gather f g st).count p
        + ((f place ++ spawned.flatMap fun h => g h.stage).map (w.queue, ·)).count p := by
  simp only [gather, h, hworkers, hhandlers, List.flatMap_append, List.flatMap_cons, List.map_append,
    List.count_append, flatMap_queue hqueue]
  omega

theorem gather_handler {st' : State} {a b : List Handler} {h : Handler} {stage : Stage}
    (hsplit : st.handlers = a ++ h :: b) (hworkers : st'.workers = st.workers)
    (hhandlers : st'.handlers = a ++ { h with stage } :: b) (p : String × String) :
    (gather f g st').count p + ((g h.stage).map (h.queue, ·)).count p =
      (gather f g st).count p + ((g stage).map (h.queue, ·)).count p := by
  simp only [gather, hsplit, hworkers, hhandlers, List.flatMap_append, List.flatMap_cons, List.count_append]
  omega

/-- What a task's step leaves to be buried: what was there, and what it adds. -/
theorem mem_of_count {α : Type} [BEq α] [LawfulBEq α] {l l' old new : List α}
    (h : ∀ p, l'.count p + old.count p = l.count p + new.count p) (p : α) (hp : p ∈ l') :
    p ∈ l ∨ p ∈ new := by
  have hpos := List.count_pos_iff.mpr hp
  have hcount := h p
  by_cases hl : p ∈ l
  · exact .inl hl
  · rw [List.count_eq_zero_of_not_mem hl] at hcount
    exact .inr (List.count_pos_iff.mp (by omega))

namespace Inv
variable {st : State}

theorem recorded_of_hand (inv : Inv st) {q id : String} (h : (q, id) ∈ st.hands) : Recorded st.store q id :=
  inv.recorded q id (inv.pushed_of_hand h).1

theorem delayed_of_hand (inv : Inv st) {q id : String} (h : (q, id) ∈ st.hands) :
    (members (lanes st.store q).delayed).count id = 0 := by
  have hone := inv.at_most_once q id
  have hcount := List.count_pos_iff.mpr h
  unfold State.live at hone
  omega

theorem delayed_le_one (inv : Inv st) (q id : String) : (members (lanes st.store q).delayed).count id ≤ 1 := by
  have hone := inv.at_most_once q id
  unfold State.live at hone
  omega

variable {a b : List Worker}

theorem sound_of_split {α : Type} {P : α → Prop} {a b : List α} {x y : α} (h : ∀ z ∈ a ++ x :: b, P z) (hy : P y) :
    ∀ z ∈ a ++ y :: b, P z := by
  intro z hz
  rcases List.mem_append.mp hz with hz | hz
  · exact h z (List.mem_append_left _ hz)
  · rcases List.mem_cons.mp hz with rfl | hz
    · exact hy
    · exact h z (List.mem_append_right _ (List.mem_cons_of_mem _ hz))

theorem worker (inv : Inv st) {st' : State} {now : Nat} {w : Worker} {place : Place} {store : Store}
    {spawned : List Handler} (h : st.workers = a ++ w :: b)
    (hstep : w.Step st.configs now st.handlers w.place st.store place store spawned)
    (hst' : st' =
      { st with store, workers := a ++ { w with place } :: b, handlers := spawned ++ st.handlers }) :
    Inv st' := by
  subst hst'
  have hw : w ∈ st.workers := by
    rw [h]
    simp
  have hhand : ∀ id ∈ w.place.hand, (w.queue, id) ∈ st.hands := fun id hid => mem_gather_worker hw hid
  obtain ⟨hb, hburying, hplace, hspawned⟩ := hstep.balanced (fun id hid => inv.recorded_of_hand (hhand id hid))
    (inv.delayed_le_one w.queue) (inv.workers w hw)
  have hqueue : ∀ h ∈ spawned, h.queue = w.queue := fun h hh => (hspawned h hh).1
  refine inv.balanced ⟨rfl, rfl, sound_of_split (h ▸ inv.workers) hplace, ?_⟩ hb (gather_worker h rfl rfl hqueue)
    rfl ?_
  · intro h' hh'
    rcases List.mem_append.mp hh' with hh' | hh'
    · exact (hspawned h' hh').2.2
    · exact inv.handlers h' hh'
  · intro p hp
    have hnone : (spawned.flatMap fun h => h.stage.burying) = [] :=
      List.flatMap_eq_nil_iff.mpr fun h hh => (hspawned h hh).2.1
    rcases mem_of_count (gather_worker h rfl rfl hqueue) p hp with h' | h'
    · exact h'
    · rw [hburying, hnone] at h'
      cases h'

theorem inline (inv : Inv st) {st' : State} {now : Nat} {w : Worker} {stage stage' : Stage} {store : Store}
    {acked : List String} (h : st.workers = a ++ w :: b) (hplace : w.place = .inline stage)
    (hstep : stage.Step st.configs now w.queue true st.store stage' store acked)
    (hst' : st' = { st with store, workers := a ++ { w with place := .inline stage' } :: b
                            acked := acked.map (w.queue, ·) ++ st.acked }) : Inv st' := by
  have hw : w ∈ st.workers := by
    rw [h]
    simp
  have hsound := inv.workers w hw
  obtain ⟨index, queue, mode, prefetch, place⟩ := w
  subst hplace
  have hgather : ∀ {f g} p, (gather f g st').count p + _ = (gather f g st).count p + _ :=
    gather_worker h (by rw [hst']) (by rw [hst']; exact (List.nil_append _).symm) (by simp)
  simp only [List.flatMap_nil, List.append_nil] at hgather
  subst hst'
  have hhand : ∀ id ∈ stage.hand, (queue, id) ∈ st.hands := fun id hid => mem_gather_worker hw hid
  obtain ⟨heffect, hsound'⟩ := hstep.effect (fun id hid => inv.recorded_of_hand (hhand id hid))
    (fun id hid => inv.delayed_of_hand (hhand id hid)) hsound
  exact inv.effect ⟨rfl, rfl, sound_of_split (h ▸ inv.workers) hsound', inv.handlers⟩ heffect rfl hgather hhand
    (fun id hid => mem_gather_worker hw hid) (mem_of_count hgather) rfl

theorem handler (inv : Inv st) {st' : State} {now : Nat} {a b : List Handler} {h : Handler} {stage : Stage}
    {store : Store} {acked : List String} (hsplit : st.handlers = a ++ h :: b)
    (hstep : h.stage.Step st.configs now h.queue h.inline st.store stage store acked)
    (hst' : st' = { st with store, handlers := a ++ { h with stage } :: b
                            acked := acked.map (h.queue, ·) ++ st.acked }) : Inv st' := by
  subst hst'
  have hh : h ∈ st.handlers := by
    rw [hsplit]
    simp
  have hhand : ∀ id ∈ h.stage.hand, (h.queue, id) ∈ st.hands := fun id hid => mem_gather_handler hh hid
  obtain ⟨heffect, hsound⟩ := hstep.effect (fun id hid => inv.recorded_of_hand (hhand id hid))
    (fun id hid => inv.delayed_of_hand (hhand id hid)) (inv.handlers h hh)
  exact inv.effect ⟨rfl, rfl, inv.workers, sound_of_split (hsplit ▸ inv.handlers) hsound⟩ heffect rfl
    (gather_handler hsplit rfl rfl) hhand (fun id hid => mem_gather_handler hh hid)
    (mem_of_count (gather_handler hsplit rfl rfl)) rfl

/-- Tasks with empty hands are dropped. -/
theorem drop (inv : Inv st) {st' : State} (hstore : st'.store = st.store) (hpushed : st'.pushed = st.pushed)
    (hacked : st'.acked = st.acked) (hpushing : st'.pushing = st.pushing)
    (hhands : ∀ p, st'.hands.count p = st.hands.count p) (hburying : ∀ p ∈ st'.burying, p ∈ st.burying)
    (hworkers : ∀ w ∈ st'.workers, w ∈ st.workers) (hhandlers : ∀ h ∈ st'.handlers, h ∈ st.handlers) :
    Inv st' := by
  have hframed : Framed st st' :=
    ⟨hpushed, hpushing, fun w hw => inv.workers w (hworkers w hw), fun h hh => inv.handlers h (hhandlers h hh)⟩
  apply inv.balanced (q := "") hframed (hstore ▸ .still fun _ => rfl) _ hacked hburying (o := []) (n := [])
  exact fun p => by rw [hhands]

theorem dropped {α : Type} {a b : List α} {x : α} : ∀ y ∈ a ++ b, y ∈ a ++ x :: b :=
  fun _ h => ((List.sublist_cons_self x b).append_left a).subset h

theorem unsubscribe (inv : Inv st) {w : Worker} (h : st.workers = a ++ w :: b) (hhand : w.place.hand = []) :
    Inv { st with workers := a ++ b } := by
  refine inv.drop rfl rfl rfl rfl ?_ ?_ (h ▸ dropped) fun _ hh => hh
  · intro p
    simp only [State.hands, gather, h, List.flatMap_append, List.flatMap_cons, hhand, List.map_nil,
      List.nil_append]
  · intro p hp
    simp only [State.burying, gather, h, List.flatMap_append, List.flatMap_cons, List.mem_append] at hp ⊢
    tauto

theorem handlerEnd (inv : Inv st) {a b : List Handler} {h : Handler} (hsplit : st.handlers = a ++ h :: b)
    (hdone : h.stage = .done) : Inv { st with handlers := a ++ b } := by
  refine inv.drop rfl rfl rfl rfl ?_ ?_ (fun _ hw => hw) (hsplit ▸ dropped)
  · intro p
    simp only [State.hands, gather, hsplit, List.flatMap_append, List.flatMap_cons, hdone, Stage.hand,
      List.map_nil, List.nil_append]
  · intro p hp
    simp only [State.burying, gather, hsplit, List.flatMap_append, List.flatMap_cons, List.mem_append] at hp ⊢
    tauto

theorem absent (inv : Inv st) {q id : String} (h : (q, id) ∉ st.pushed) :
    st.live q id = 0 ∧ st.dead q id = 0 ∧ st.acked.count (q, id) = 0 := by
  have htotal := inv.total q id
  rw [List.count_eq_zero_of_not_mem h] at htotal
  omega

theorem pushStart (inv : Inv st) {p : Pushing} (hfresh : st.Fresh p.job.queue p.job.id) :
    Inv { st with store := st.store.setJob (jobKey p.job.queue p.job.id) (.job p.job)
                  pushing := p :: st.pushing } := by
  obtain ⟨hid, hnew, hother⟩ := hfresh
  have hset : ∀ q' id', Plain id' → record (st.store.setJob (jobKey p.job.queue p.job.id) (.job p.job)) q' id' =
      if p.job.queue = q' ∧ p.job.id = id' then some (.job p.job) else record st.store q' id' :=
    fun q' id' hid' => record_setJob _ _ hid _ _ hid'
  have hkeep : ∀ q' id', Plain id' → (q', id') ≠ (p.job.queue, p.job.id) → Recorded st.store q' id' →
      Recorded (st.store.setJob (jobKey p.job.queue p.job.id) (.job p.job)) q' id' := by
    intro q' id' hid' hne hrec
    rw [Recorded, hset q' id' hid', if_neg]
    · exact hrec
    · rintro ⟨rfl, rfl⟩
      exact hne rfl
  refine ⟨inv.total, inv.once, inv.plain, ?_, ?_, ?_, ?_, inv.buried, ?_, inv.workers, inv.handlers⟩
  · intro q id hpos
    have hold : 0 < st.live q id := hpos
    have hid' : Plain id := inv.plain_of_live (q := q) (by omega)
    apply hkeep q id hid' _ (inv.recorded q id hold)
    rintro heq
    obtain ⟨rfl, rfl⟩ := Prod.mk.inj heq
    have hnone := (inv.absent hnew).1
    omega
  · intro q id hid' hsome
    by_cases h : p.job.queue = q ∧ p.job.id = id
    · exact .inr (.inr ⟨p, List.mem_cons_self .., by rw [h.1, h.2]⟩)
    · replace hsome : (record (st.store.setJob _ _) q id).isSome := hsome
      rw [hset q id hid', if_neg h] at hsome
      rcases inv.only q id hid' hsome with h' | h' | ⟨p', hp', heq⟩
      · exact .inl h'
      · exact .inr (.inl h')
      · exact .inr (.inr ⟨p', List.mem_cons_of_mem _ hp', heq⟩)
  · intro p' hp'
    rcases List.mem_cons.mp hp' with rfl | hp'
    · exact ⟨hid, hnew, p'.job, by rw [hset _ _ hid, if_pos ⟨rfl, rfl⟩], rfl⟩
    · obtain ⟨hid', hnew', hrec⟩ := inv.pushing p' hp'
      exact ⟨hid', hnew', hkeep _ _ hid' (hother p' hp') hrec⟩
  · refine List.nodup_cons.mpr ⟨?_, inv.distinct⟩
    intro hmem
    obtain ⟨p', hp', heq⟩ := List.mem_map.mp hmem
    exact hother p' hp' heq
  · intro m hm
    rcases Assoc.mem_insert hm with hm | rfl
    · exact inv.keys m hm
    · exact ⟨_, _, hid, rfl⟩

/-- The job of a push arrives in one lane. -/
theorem enter_lanes (p : Pushing) (s : Store)
    (hnone : (members (lanes s p.job.queue).delayed).count p.job.id = 0) :
    Balanced p.job.queue s (p.enter s) [p.job.id] [] := by
  unfold Pushing.enter
  split
  · exact .zadd_delayed _ hnone
  · exact .lpush_waiting p.job.id []

theorem pushEnd (inv : Inv st) {a b : List Pushing} {p : Pushing} (h : st.pushing = a ++ p :: b) :
    Inv { st with store := p.enter st.store, pushing := a ++ b
                  pushed := (p.job.queue, p.job.id) :: st.pushed } := by
  set st' : State := { st with store := p.enter st.store, pushing := a ++ b
                               pushed := (p.job.queue, p.job.id) :: st.pushed }
  have hp : p ∈ st.pushing := by
    rw [h]
    simp
  have hrest : ∀ p' ∈ a ++ b, p' ∈ st.pushing ∧ (p'.job.queue, p'.job.id) ≠ (p.job.queue, p.job.id) := by
    intro p' hp'
    have hperm : (a ++ p :: b).Perm (p :: (a ++ b)) := List.perm_middle
    have hdistinct := (hperm.map fun p : Pushing => (p.job.queue, p.job.id)).nodup_iff.mp (h ▸ inv.distinct)
    refine ⟨h ▸ hperm.mem_iff.mpr (List.mem_cons_of_mem _ hp'), ?_⟩
    intro heq
    exact (List.nodup_cons.mp hdistinct).1 (List.mem_map.mpr ⟨p', hp', heq⟩)
  obtain ⟨hid, hnew, hrec⟩ := inv.pushing p hp
  obtain ⟨hlive, hdead, hacked⟩ := inv.absent hnew
  have hb := enter_lanes p st.store (by unfold State.live at hlive; omega)
  have hrecord : record st'.store = record st.store := by
    funext q id
    rw [record, record, getJob, getJob]
    exact congrArg (Assoc.get? · _) hb.jobs
  -- The hands stand still, so the balance is over the lanes alone.
  have hcount : ∀ q id, st'.live q id = st.live q id + if (p.job.queue, p.job.id) = (q, id) then 1 else 0 := by
    intro q id
    show (lanes (p.enter st.store) q).waiting.count id + (members (lanes (p.enter st.store) q).delayed).count id
      + st.hands.count (q, id) = _
    by_cases hq : p.job.queue = q
    · subst hq
      have hhere := hb.here id
      simp only [around, List.count_cons, List.count_nil, beq_iff_eq] at hhere
      simp only [State.live, Prod.mk.injEq, true_and]
      omega
    · rw [hb.other q (Ne.symm hq), if_neg (fun h' => hq (Prod.mk.inj h').1)]
      rfl
  have hdead' : ∀ q id, st'.dead q id = st.dead q id := by
    intro q id
    show (lanes (p.enter st.store) q).deadIds.count id = (lanes st.store q).deadIds.count id
    by_cases hq : p.job.queue = q
    · rw [Lanes.deadIds, ← hq, hb.dead]
      rfl
    · rw [hb.other q (Ne.symm hq)]
  refine ⟨?_, List.nodup_cons.mpr ⟨hnew, inv.once⟩, ?_, ?_, ?_, ?_, ?_, ?_, ?_, inv.workers, inv.handlers⟩
  · intro q id
    have htotal := inv.total q id
    rw [hcount, hdead']
    show _ + st.acked.count (q, id) = (_ :: st.pushed).count (q, id)
    rw [List.count_cons]
    simp only [beq_iff_eq]
    omega
  · intro q id hmem
    rcases List.mem_cons.mp hmem with heq | hmem
    · obtain ⟨rfl, rfl⟩ := Prod.mk.inj heq
      exact hid
    · exact inv.plain q id hmem
  · intro q id hpos
    rw [hcount] at hpos
    rw [Recorded, hrecord]
    by_cases heq : (p.job.queue, p.job.id) = (q, id)
    · obtain ⟨rfl, rfl⟩ := Prod.mk.inj heq
      exact hrec
    · rw [if_neg heq] at hpos
      exact inv.recorded q id hpos
  · intro q id hid' hsome
    rw [hrecord] at hsome
    rw [hcount, hdead']
    rcases inv.only q id hid' hsome with h' | h' | ⟨p', hp', heq⟩
    · exact .inl (by omega)
    · exact .inr (.inl h')
    · by_cases hsame : (p.job.queue, p.job.id) = (q, id)
      · exact .inl (by rw [if_pos hsame]; omega)
      · refine .inr (.inr ⟨p', ?_, heq⟩)
        rw [h] at hp'
        rcases List.mem_append.mp hp' with hp' | hp'
        · exact List.mem_append_left _ hp'
        · rcases List.mem_cons.mp hp' with rfl | hp'
          · exact absurd heq hsame
          · exact List.mem_append_right _ hp'
  · intro p' hp'
    obtain ⟨hmem, hne⟩ := hrest p' hp'
    obtain ⟨hid', hnew', hrec'⟩ := inv.pushing p' hmem
    refine ⟨hid', ?_, ?_⟩
    · intro hmem'
      rcases List.mem_cons.mp hmem' with heq | hmem'
      · exact hne heq
      · exact hnew' hmem'
    · rw [Recorded, hrecord]
      exact hrec'
  · have hsub : (a ++ b).Sublist st.pushing := by
      rw [h]
      exact List.Sublist.append (List.Sublist.refl a) (List.sublist_cons_self p b)
    exact (hsub.map _).nodup inv.distinct
  · intro q id hmem
    rw [hdead']
    exact inv.buried q id hmem
  · exact hb.jobs ▸ inv.keys

theorem moveReady (inv : Inv st) (q id : String) : Inv { st with store := Queue.moveReady q st.store id } := by
  have hjobs : (Queue.moveReady q st.store id).jobs = st.store.jobs := by
    unfold Queue.moveReady
    split <;> rfl
  have hb : Balanced q st.store (Queue.moveReady q st.store id) [] [] := by
    by_cases h : id ∈ members (lanes st.store q).delayed
    · apply Balanced.of_update (lanes_moveReady_of_mem _ _ _ h)
      · intro id'
        have hone := inv.delayed_le_one q id
        have hpos := List.count_pos_iff.mpr h
        simp only [around, List.count_append, count_members_filter, List.count_cons, List.count_nil, beq_iff_eq]
        by_cases h' : id = id'
        · subst h'
          simp only [if_true]
          omega
        · simp [h']
      · rfl
      · exact hjobs
    · apply Balanced.of_update
      · rw [lanes_moveReady_of_not_mem _ _ _ h]
        exact (Function.update_eq_self q _).symm
      · exact fun _ => rfl
      · rfl
      · exact hjobs
  exact inv.balanced ⟨rfl, rfl, inv.workers, inv.handlers⟩ hb (fun _ => rfl) rfl fun _ hp => hp

theorem moveDelayedToWaiting (inv : Inv st) (now : Nat) (q : String) :
    Inv { st with store := Queue.moveDelayedToWaiting now q st.store } := by
  show Inv { st with store := List.foldl (Queue.moveReady q) st.store _ }
  generalize zrangebyscore (delayedKey q) 0 now st.store.sortedSets = ready
  induction ready generalizing st with
  | nil => exact inv
  | cons id rest ih => exact ih (inv.moveReady q id)

/-- A store without lists and sets has no records either: nothing is left to rebuild from. -/
theorem no_jobs (inv : Inv st) (hhands : st.hands = []) (hpushing : st.pushing = [])
    (hstate : hasQueueState st.store = false) : st.store.jobs = [] := by
  have hkeys : ∀ key ∈ st.store.lists.map (·.1) ++ st.store.dlqs.map (·.1) ++ st.store.sortedSets.map (·.1),
      ¬"queue:".toList.isPrefixOf key.toList := by
    exact fun key hkey => by simpa using List.any_eq_false.mp hstate key hkey
  have hmissing : ∀ {α : Type} (lists : Lists α) (key : String), key ∉ lists.map (·.1) → items lists key = [] := by
    intro α lists key h
    rw [items, Assoc.get?_eq_none_iff.mpr h]
    rfl
  have hstarts : ∀ q post : String, "queue:".toList.isPrefixOf ("queue:" ++ q ++ post).toList := by
    intro q post
    rw [List.isPrefixOf_iff_prefix, String.toList_append, String.toList_append, List.append_assoc]
    exact List.prefix_append ..
  have hlanes : ∀ q, lanes st.store q = ⟨[], [], [], []⟩ := by
    intro q
    rw [lanes, hmissing st.store.lists, hmissing st.store.lists, hmissing st.store.sortedSets,
      hmissing st.store.dlqs]
    · exact fun h => hkeys _ (List.mem_append_left _ (List.mem_append_right _ h)) (hstarts q ":dlq")
    · exact fun h => hkeys _ (List.mem_append_right _ h) (hstarts q ":delayed")
    · exact fun h => hkeys _ (List.mem_append_left _ (List.mem_append_left _ h)) (hstarts q ":active")
    · exact fun h => hkeys _ (List.mem_append_left _ (List.mem_append_left _ h)) (hstarts q ":waiting")
  cases hjobs : st.store.jobs with
  | nil => rfl
  | cons m rest =>
    obtain ⟨q, id, hid, hkey⟩ := inv.keys m (by rw [hjobs]; exact List.mem_cons_self ..)
    have hsome : (record st.store q id).isSome := by
      rw [record, getJob, hjobs, Assoc.get?_cons, if_pos hkey]
      rfl
    rcases inv.only q id hid hsome with h | h | ⟨p, hp, -⟩
    · rw [State.live, hlanes, hhands] at h
      simp [members] at h
    · rw [State.dead, hlanes] at h
      simp [Lanes.deadIds] at h
    · rw [hpushing] at hp
      cases hp

theorem restart (inv : Inv st) (now : Nat) (hsaved : st.saved = st.store) (hhands : st.hands = [])
    (hpushing : st.pushing = []) :
    Inv { st with store := rebuildFromStorage now st.saved, pushing := [], workers := [], handlers := []
                  configs := [] } := by
  have idle : Inv { st with pushing := [], workers := [], handlers := [], configs := [] } := by
    refine inv.drop rfl rfl rfl hpushing.symm ?_ ?_ ?_ ?_
    · intro p
      rw [hhands]
      rfl
    · exact fun _ hp => absurd hp List.not_mem_nil
    · exact fun _ hw => absurd hw List.not_mem_nil
    · exact fun _ hh => absurd hh List.not_mem_nil
  have hload : rebuildFromStorage now st.saved = rebuildFromStorage now st.store := by rw [hsaved]
  rw [hload, rebuildFromStorage]
  split
  · generalize (((st.store.jobs.map (·.1)).filter isJobKey).filterMap queueNameOf).dedup = names
    generalize st.store = s at idle ⊢
    induction names generalizing s with
    | nil => exact idle
    | cons q rest ih => exact ih _ (idle.moveDelayedToWaiting now q)
  · rename_i hstate
    have hnone := inv.no_jobs hhands hpushing (by simpa using hstate)
    rw [hnone]
    exact idle

end Inv

/-! ### The result -/

/-- Tasks are dropped only with empty hands, and a restart finds an up-to-date copy. -/
def careful : Conditions where
  unsubscribe _ w := w.place.hand = []
  restart st := st.saved = st.store ∧ st.hands = [] ∧ st.pushing = []

/-- No handler is running and no worker step is in progress. -/
def State.Quiet (st : State) : Prop := (∀ w ∈ st.workers, w.place = .tick) ∧ st.handlers = []

/-- Every job that is not done will be delivered by some later pop. -/
def State.Deliverable (st : State) : Prop :=
  ∀ q id, (q, id) ∈ st.pushed → (q, id) ∉ st.acked → id ∉ (lanes st.store q).deadIds →
    id ∈ (lanes st.store q).waiting ∨ id ∈ members (lanes st.store q).delayed

theorem Inv.step {st st' : State} (inv : Inv st) (hstep : Step careful st st') : Inv st' := by
  cases hstep with
  | pushStart p hfresh => exact inv.pushStart hfresh
  | pushEnd a b p h => exact inv.pushEnd h
  | subscribe w configs hplace hworker hhandler =>
    refine inv.balanced ⟨rfl, rfl, ?_, inv.handlers⟩ (q := w.queue) (.still fun _ => rfl) (o := []) (n := [])
      ?_ rfl ?_
    · intro w' hw'
      rcases List.mem_cons.mp hw' with rfl | hw'
      · rw [hplace]
        trivial
      · exact inv.workers w' hw'
    · intro p
      simp only [State.hands, gather, List.flatMap_cons, hplace, Place.hand, List.map_nil, List.nil_append]
    · intro p hp
      simpa only [State.burying, gather, List.flatMap_cons, hplace, Place.burying, List.map_nil,
        List.nil_append] using hp
  | worker now a b w place store spawned h hstep => exact inv.worker h hstep rfl
  | inline now a b w stage stage' store acked h hplace hstep => exact inv.inline h hplace hstep rfl
  | handler now a b h stage store acked hsplit hstep => exact inv.handler hsplit hstep rfl
  | handlerEnd a b h hsplit hdone => exact inv.handlerEnd hsplit hdone
  | saveLists => exact inv.drop rfl rfl rfl rfl (fun _ => rfl) (fun _ h => h) (fun _ h => h) (fun _ h => h)
  | saveSets => exact inv.drop rfl rfl rfl rfl (fun _ => rfl) (fun _ h => h) (fun _ h => h) (fun _ h => h)
  | saveJobs => exact inv.drop rfl rfl rfl rfl (fun _ => rfl) (fun _ h => h) (fun _ h => h) (fun _ h => h)
  | unsubscribe a b w h hallow => exact inv.unsubscribe h hallow
  | restart now hallow => exact inv.restart now hallow.1 hallow.2.1 hallow.2.2

theorem Inv.deliverable (inv : Inv st) (hquiet : st.Quiet) : st.Deliverable := by
  intro q id hmem hacked hdead
  have hhands : st.hands = [] := by
    obtain ⟨htick, hnone⟩ := hquiet
    rw [State.hands, gather, hnone, List.flatMap_nil, List.append_nil, List.flatMap_eq_nil_iff]
    intro w hw
    rw [htick w hw]
    rfl
  have htotal := inv.total q id
  rw [List.count_eq_one_of_mem inv.once hmem, List.count_eq_zero_of_not_mem hacked, State.live, State.dead,
    List.count_eq_zero_of_not_mem hdead, hhands] at htotal
  rw [← List.count_pos_iff, ← List.count_pos_iff]
  simp only [List.count_nil] at htotal
  omega

def letter : Job := .newWithGroup "j" 0 "mail" .null 3 1000 none none none

def letterPushed : Store :=
  (Store.empty.setJob (jobKey "mail" "j") (.job letter)).onLists (lpush (waitingKey "mail") "j")

def letterPopped : Store := letterPushed.onLists fun lists => (rpop (waitingKey "mail") lists).2

def letterActive : Store := letterPopped.onLists (lpush (activeKey "mail") "j")

/-- The letter is pushed and one worker serves its queue in order. -/
def serving (store saved : Store) (place : Place) : State :=
  ⟨store, saved, [], [⟨0, "mail", .fifo, 1, place⟩], [], [], [("mail", "j")], []⟩

section Run
variable {C : Conditions}

theorem reachable_pushed : (system C).Reachable ⟨letterPushed, .empty, [], [], [], [], [("mail", "j")], []⟩ := by
  have hplain : Plain "j" := by decide
  have hstart : (system C).Reachable .empty := .init rfl
  have hset := hstart.step (.pushStart .empty ⟨letter, none⟩ ⟨hplain, List.not_mem_nil, by simp [State.empty]⟩)
  exact hset.step (.pushEnd _ [] [] ⟨letter, none⟩ rfl)

theorem reachable_serving {store store' : Store} {place place' : Place}
    (h : (system C).Reachable (serving store .empty place))
    (hstep : Worker.Step [] 0 [] ⟨0, "mail", .fifo, 1, place⟩ place store place' store' []) :
    (system C).Reachable (serving store' .empty place') :=
  h.step (Step.worker (serving store .empty place) 0 [] [] ⟨0, "mail", .fifo, 1, place⟩ place' store' [] rfl hstep)

/-- The letter is delivered and its handler is running. -/
theorem reachable_handling : (system C).Reachable (serving letterActive .empty (.inline (.handling letter))) := by
  have hplain : Plain "j" := by decide
  have hread : record letterActive "mail" "j" = some (.job letter) := by
    show record (Store.empty.setJob (jobKey "mail" "j") (.job letter)) "mail" "j" = _
    rw [record_setJob _ _ hplain _ _ hplain, if_pos ⟨rfl, rfl⟩]
  have hsubscribe : (system C).Reachable (serving letterPushed .empty .tick) :=
    reachable_pushed.step (.subscribe _ ⟨0, "mail", .fifo, 1, .tick⟩ [] rfl (by simp) (by simp))
  have htick := reachable_serving hsubscribe (.tick _)
  have hmoved := reachable_serving htick (.moveEnd _)
  have hpopped : (system C).Reachable (serving letterPopped .empty (.popped "j" [])) :=
    reachable_serving hmoved (.pop [] [] "j" _ (by simp) (by rfl))
  have hactive : (system C).Reachable (serving letterActive .empty (.reading "j" [])) :=
    reachable_serving hpopped (.activate "j" [] _)
  have hdeciding := reachable_serving hactive (.read "j" [] _ letter (by
    show (record letterActive "mail" "j").bind Record.read = _
    rw [hread]
    rfl))
  exact reachable_serving hdeciding (.inline letter _ rfl)

end Run

/-- An unsubscribe drops the worker at any await point, and a restart may come at any
time; the saved copy is up to date. -/
def anywhere : Conditions where
  unsubscribe _ _ := True
  restart st := st.saved = st.store

end Iii.Queue.Tasks
