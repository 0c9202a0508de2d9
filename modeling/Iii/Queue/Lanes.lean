import Iii.Queue.Ops

/-! One queue at a time.

`lanes` reads the four structures of one queue out of the store and `record` the
record of one of its jobs. The keys of two queues never meet, and neither do the keys
of two records whose ids have no `:` in them, as the ids the queue makes have none; so
every operation is described by what it does to the lanes of its queue. -/
namespace Iii.Queue
open Lib Store

/-! ### Keys -/

theorem sandwich_injective (pre post : String) : Function.Injective fun q : String => pre ++ q ++ post := by
  intro q q' h
  have h := congrArg String.toList h
  simp only [String.toList_append, List.append_assoc] at h
  exact String.toList_inj.mp (List.append_cancel_right (List.append_cancel_left h))

theorem waitingKey_inj {q q' : String} : waitingKey q = waitingKey q' ↔ q = q' :=
  ⟨fun h => sandwich_injective "queue:" ":waiting" h, congrArg _⟩

theorem activeKey_inj {q q' : String} : activeKey q = activeKey q' ↔ q = q' :=
  ⟨fun h => sandwich_injective "queue:" ":active" h, congrArg _⟩

theorem delayedKey_inj {q q' : String} : delayedKey q = delayedKey q' ↔ q = q' :=
  ⟨fun h => sandwich_injective "queue:" ":delayed" h, congrArg _⟩

theorem dlqKey_inj {q q' : String} : dlqKey q = dlqKey q' ↔ q = q' :=
  ⟨fun h => sandwich_injective "queue:" ":dlq" h, congrArg _⟩

theorem waitingKey_ne_activeKey (q q' : String) : waitingKey q ≠ activeKey q' := by
  intro h
  have hw : (waitingKey q).toList.getLast? = some 'g' := by
    simp only [waitingKey, String.toList_append, List.getLast?_append]
    rfl
  have ha : (activeKey q').toList.getLast? = some 'e' := by
    simp only [activeKey, String.toList_append, List.getLast?_append]
    rfl
  rw [h, ha] at hw
  exact absurd hw (by decide)

/-- An id without `:`, as a UUID is. -/
def Plain (id : String) : Prop := ':' ∉ id.toList

instance (id : String) : Decidable (Plain id) := inferInstanceAs (Decidable (_ ∉ _))

/-- The last separator splits a text in one way. -/
theorem split_last {α : Type} {sep : α} {a b c d : List α} (hb : sep ∉ b) (hd : sep ∉ d)
    (h : a ++ sep :: b = c ++ sep :: d) : a = c ∧ b = d := by
  rcases List.append_eq_append_iff.mp h with ⟨e, rfl, he⟩ | ⟨e, rfl, he⟩
  all_goals
    cases e with
    | nil => simp_all
    | cons x e => simp_all

theorem jobKey_inj {q q' id id' : String} (hid : Plain id) (hid' : Plain id') :
    jobKey q id = jobKey q' id' ↔ q = q' ∧ id = id' := by
  constructor
  · intro h
    have h := congrArg String.toList h
    have hsep : ":jobs:".toList = ":jobs".toList ++ [':'] := by decide
    simp only [jobKey, String.toList_append, hsep] at h
    obtain ⟨hq, hid⟩ := split_last (a := "queue:".toList ++ q.toList ++ ":jobs".toList)
      (c := "queue:".toList ++ q'.toList ++ ":jobs".toList) hid hid' (by simpa using h)
    exact ⟨String.toList_inj.mp (List.append_cancel_left (List.append_cancel_right hq)),
      String.toList_inj.mp hid⟩
  · rintro ⟨rfl, rfl⟩
    rfl

/-! ### Lanes -/

structure Lanes where
  waiting : List String
  active : List String
  delayed : List (Int × String)
  dead : List Payload

def Payload.writtenId : Payload → Option String
  | .failed job _ _ => some job.id
  | .other _ _ => none

/-- The jobs of the dead letters. -/
def Lanes.deadIds (l : Lanes) : List String := l.dead.filterMap Payload.writtenId

def lanes (s : Store) (q : String) : Lanes :=
  ⟨items s.lists (waitingKey q), items s.lists (activeKey q), items s.sortedSets (delayedKey q),
    items s.dlqs (dlqKey q)⟩

def record (s : Store) (q id : String) : Option Record := s.getJob (jobKey q id)

variable (s : Store) (q id : String)

@[simp] theorem lanes_setJob (key : String) (r : Record) : lanes (s.setJob key r) = lanes s := rfl
@[simp] theorem lanes_deleteJob (key : String) : lanes (s.deleteJob key) = lanes s := rfl
@[simp] theorem record_onLists (f : Lists String → Lists String) : record (s.onLists f) = record s := rfl
@[simp] theorem record_onDlqs (f : Lists Payload → Lists Payload) : record (s.onDlqs f) = record s := rfl
@[simp] theorem record_onSets (f : SortedSets → SortedSets) : record (s.onSets f) = record s := rfl

theorem lanes_onLists_waiting (f : Lists String → Lists String) (g : List String → List String)
    (hf : ∀ lists key, items (f lists) key =
      if waitingKey q = key then g (items lists key) else items lists key) :
    lanes (s.onLists f) =
      Function.update (lanes s) q { lanes s q with waiting := g (lanes s q).waiting } := by
  funext q'
  unfold lanes onLists
  by_cases h : q' = q
  · subst h
    simp [hf, waitingKey_ne_activeKey]
  · have hkey : waitingKey q ≠ waitingKey q' := fun h' => h (waitingKey_inj.mp h').symm
    simp [hf, waitingKey_ne_activeKey, h, hkey]

theorem lanes_onLists_active (f : Lists String → Lists String) (g : List String → List String)
    (hf : ∀ lists key, items (f lists) key =
      if activeKey q = key then g (items lists key) else items lists key) :
    lanes (s.onLists f) =
      Function.update (lanes s) q { lanes s q with active := g (lanes s q).active } := by
  have hne : ∀ q', activeKey q ≠ waitingKey q' := fun q' => (waitingKey_ne_activeKey q' q).symm
  funext q'
  unfold lanes onLists
  by_cases h : q' = q
  · subst h
    simp [hf, hne]
  · have hkey : activeKey q ≠ activeKey q' := fun h' => h (activeKey_inj.mp h').symm
    simp [hf, hne, h, hkey]

theorem lanes_onSets (f : SortedSets → SortedSets) (g : List (Int × String) → List (Int × String))
    (hf : ∀ sets key, items (f sets) key =
      if delayedKey q = key then g (items sets key) else items sets key) :
    lanes (s.onSets f) =
      Function.update (lanes s) q { lanes s q with delayed := g (lanes s q).delayed } := by
  funext q'
  unfold lanes onSets
  by_cases h : q' = q
  · subst h
    simp [hf]
  · have hkey : delayedKey q ≠ delayedKey q' := fun h' => h (delayedKey_inj.mp h').symm
    simp [hf, h, hkey]

theorem lanes_onDlqs (f : Lists Payload → Lists Payload) (g : List Payload → List Payload)
    (hf : ∀ lists key, items (f lists) key =
      if dlqKey q = key then g (items lists key) else items lists key) :
    lanes (s.onDlqs f) = Function.update (lanes s) q { lanes s q with dead := g (lanes s q).dead } := by
  funext q'
  unfold lanes onDlqs
  by_cases h : q' = q
  · subst h
    simp [hf]
  · have hkey : dlqKey q ≠ dlqKey q' := fun h' => h (dlqKey_inj.mp h').symm
    simp [hf, h, hkey]

@[simp] theorem lanes_lpush_waiting : lanes (s.onLists (lpush (waitingKey q) id)) =
    Function.update (lanes s) q { lanes s q with waiting := id :: (lanes s q).waiting } :=
  lanes_onLists_waiting s q _ _ fun _ _ => items_lpush ..

@[simp] theorem lanes_rpush_waiting : lanes (s.onLists (rpush (waitingKey q) id)) =
    Function.update (lanes s) q { lanes s q with waiting := (lanes s q).waiting ++ [id] } :=
  lanes_onLists_waiting s q _ (· ++ [id]) fun _ _ => items_rpush ..

@[simp] theorem lanes_rpop_waiting : lanes (s.onLists fun lists => (rpop (waitingKey q) lists).2) =
    Function.update (lanes s) q { lanes s q with waiting := (lanes s q).waiting.dropLast } :=
  lanes_onLists_waiting s q _ _ fun _ _ => items_rpop ..

@[simp] theorem lanes_lpush_active : lanes (s.onLists (lpush (activeKey q) id)) =
    Function.update (lanes s) q { lanes s q with active := id :: (lanes s q).active } :=
  lanes_onLists_active s q _ _ fun _ _ => items_lpush ..

@[simp] theorem lanes_lrem_active : lanes (s.onLists (lrem (activeKey q) 1 id)) =
    Function.update (lanes s) q { lanes s q with active := (lanes s q).active.erase id } :=
  lanes_onLists_active s q _ (·.erase id) fun _ _ => items_lrem_one ..

@[simp] theorem lanes_zadd (score : Int) : lanes (s.onSets (zadd (delayedKey q) score id)) =
    Function.update (lanes s) q { lanes s q with delayed := insertScore score id (lanes s q).delayed } :=
  lanes_onSets s q _ _ fun _ _ => items_zadd ..

@[simp] theorem lanes_zrem : lanes (s.onSets fun sets => (zrem (delayedKey q) id sets).2) =
    Function.update (lanes s) q
      { lanes s q with delayed := (lanes s q).delayed.filter fun e => e.2 ≠ id } :=
  lanes_onSets s q _ (·.filter fun e => e.2 ≠ id) fun _ _ => items_zrem ..

@[simp] theorem lanes_lpush_dlq (item : Payload) : lanes (s.onDlqs (lpush (dlqKey q) item)) =
    Function.update (lanes s) q { lanes s q with dead := item :: (lanes s q).dead } :=
  lanes_onDlqs s q _ _ fun _ _ => items_lpush ..

@[simp] theorem lanes_rpop_dlq : lanes (s.onDlqs fun lists => (rpop (dlqKey q) lists).2) =
    Function.update (lanes s) q { lanes s q with dead := (lanes s q).dead.dropLast } :=
  lanes_onDlqs s q _ _ fun _ _ => items_rpop ..

theorem lanes_put_dlq (l : List Payload) : lanes (s.onDlqs fun lists => put lists (dlqKey q) l) =
    Function.update (lanes s) q { lanes s q with dead := l } :=
  lanes_onDlqs s q _ (fun _ => l) fun _ _ => items_put ..

/-! ### Records -/

variable {id}

theorem record_setJob (hid : Plain id) (r : Record) (q' : String) {id' : String} (hid' : Plain id') :
    record (s.setJob (jobKey q id) r) q' id' =
      if q = q' ∧ id = id' then some r else record s q' id' := by
  unfold record setJob getJob
  simp only [Assoc.get?_insert, jobKey_inj hid hid']

theorem record_deleteJob (hid : Plain id) (q' : String) {id' : String} (hid' : Plain id') :
    record (s.deleteJob (jobKey q id)) q' id' =
      if q = q' ∧ id = id' then none else record s q' id' := by
  unfold record deleteJob getJob
  simp only [Assoc.get?_erase, jobKey_inj hid hid']

/-! ### Operations -/

variable (id)

theorem lanes_onLists_comp (f g : Lists String → Lists String) :
    s.onLists (fun lists => f (g lists)) = (s.onLists g).onLists f := rfl

@[simp] theorem lanes_pushJob (job : Job) : lanes (pushJob job s) = Function.update (lanes s) job.queue
    { lanes s job.queue with waiting := job.id :: (lanes s job.queue).waiting } := by
  rw [pushJob, lanes_lpush_waiting, lanes_setJob]

/-- The store after the two list moves of `pop`. -/
def popped (q id : String) (s : Store) : Store :=
  s.onLists fun lists => lpush (activeKey q) id (rpop (waitingKey q) lists).2

theorem pop_nil (h : (lanes s q).waiting = []) : pop q s = (none, s) := by
  have hitems : items s.lists (waitingKey q) = [] := h
  simp [pop, rpop, hitems]

theorem pop_snoc {w : List String} (h : (lanes s q).waiting = w ++ [id]) :
    pop q s = ((record s q id).bind Record.read, popped q id s) := by
  have hitems : items s.lists (waitingKey q) = w ++ [id] := h
  have hpop : rpop (waitingKey q) s.lists = (some id, (rpop (waitingKey q) s.lists).2) := by
    simp [rpop, hitems]
  rw [pop, hpop]
  rfl

@[simp] theorem record_popped : record (popped q id s) = record s := rfl

theorem lanes_popped {w : List String} (h : (lanes s q).waiting = w ++ [id]) :
    lanes (popped q id s) = Function.update (lanes s) q
      { lanes s q with waiting := w, active := id :: (lanes s q).active } := by
  rw [popped, lanes_onLists_comp, lanes_lpush_active, lanes_rpop_waiting, Function.update_self,
    Function.update_idem, h, List.dropLast_concat]

@[simp] theorem lanes_ack : lanes (ack q id s) =
    Function.update (lanes s) q { lanes s q with active := (lanes s q).active.erase id } := by
  rw [ack, lanes_deleteJob, lanes_lrem_active]

@[simp] theorem lanes_moveToDlq (job : Job) (error : String) (now : Nat) :
    lanes (moveToDlq q job error now s) = Function.update (lanes s) q
      { lanes s q with
        active := (lanes s q).active.erase job.id
        dead := .failed job error now :: (lanes s q).dead } := by
  rw [moveToDlq, lanes_deleteJob, lanes_lpush_dlq, lanes_lrem_active, Function.update_self,
    Function.update_idem]

@[simp] theorem lanes_requeue : lanes (requeue q id s) = Function.update (lanes s) q
    { lanes s q with
      waiting := id :: (lanes s q).waiting
      active := (lanes s q).active.erase id } := by
  rw [requeue, lanes_onLists_comp, lanes_lrem_active, lanes_lpush_waiting, Function.update_self,
    Function.update_idem]

@[simp] theorem record_requeue : record (requeue q id s) = record s := rfl

@[simp] theorem record_moveReady : record (moveReady q s id) = record s := by
  unfold moveReady
  split <;> rfl

theorem lanes_moveReady_of_mem (h : id ∈ members (lanes s q).delayed) :
    lanes (moveReady q s id) = Function.update (lanes s) q
      { lanes s q with
        waiting := (lanes s q).waiting ++ [id]
        delayed := (lanes s q).delayed.filter fun e => e.2 ≠ id } := by
  have hfound : (zrem (delayedKey q) id s.sortedSets).1 = true := by
    obtain ⟨e, he, rfl⟩ := List.mem_map.mp h
    exact List.any_eq_true.mpr ⟨e, he, by simp⟩
  have hstore : moveReady q s id =
      (s.onSets fun sets => (zrem (delayedKey q) id sets).2).onLists (rpush (waitingKey q) id) := by
    rw [moveReady]
    split
    · rename_i heq
      simp only [onSets, onLists, heq]
    · rename_i heq
      rw [heq] at hfound
      cases hfound
  rw [hstore, lanes_rpush_waiting, lanes_zrem, Function.update_self, Function.update_idem]

theorem lanes_moveReady_of_not_mem (h : id ∉ members (lanes s q).delayed) :
    lanes (moveReady q s id) = lanes s := by
  have hfound : (zrem (delayedKey q) id s.sortedSets).1 = false := by
    apply List.any_eq_false.mpr
    intro e he heq
    apply h
    rw [← of_decide_eq_true heq]
    exact List.mem_map_of_mem he
  have hstore : moveReady q s id = s.onSets fun sets => (zrem (delayedKey q) id sets).2 := by
    rw [moveReady]
    split
    · rename_i heq
      rw [heq] at hfound
      cases hfound
    · rename_i heq
      simp only [onSets, heq]
  have hfilter : (lanes s q).delayed.filter (fun e => e.2 ≠ id) = (lanes s q).delayed := by
    apply List.filter_eq_self.mpr
    intro e he
    simp only [ne_eq, decide_not, Bool.not_eq_eq_eq_not, Bool.not_true, decide_eq_false_iff_not]
    intro heq
    apply h
    rw [← heq]
    exact List.mem_map_of_mem he
  rw [hstore, lanes_zrem, hfilter]
  exact Function.update_eq_self q (lanes s)

@[simp] theorem lanes_redriveJob (job : Job) : lanes (redriveJob q job s) =
    Function.update (lanes s) q { lanes s q with waiting := job.id :: (lanes s q).waiting } := by
  rw [redriveJob, lanes_lpush_waiting, lanes_setJob]

end Iii.Queue
