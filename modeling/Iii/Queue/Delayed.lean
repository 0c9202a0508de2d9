import Iii.Queue.Lanes
import Mathlib.Data.List.Induction

/-! The delayed set: when a job is due, and in what order the due jobs leave.

A job that is put off gets a due time, the clock plus a delay, which is computed in `u64` and stored as an `i64` score.
The score is the due time as long as the sum stays below `2^63` (`scheduling_exact`).

The due jobs are read in ascending score, and each is pushed to the end that `pop` takes from. So the one that was due
first is behind all others (`lanes_moveDelayedToWaiting`), and they leave in the order of their due times only when
these are all the same (`retries_order`). -/
namespace Iii.Queue
open Lib Store

/-! ### Sets -/

/-- What the sorted set keeps: its scores ascend, and no member is in it twice. -/
structure Ordered (set : List (Int × String)) : Prop where
  scores : set.Pairwise fun a b => a.1 ≤ b.1
  nodup : (members set).Nodup

theorem ordered_nil : Ordered [] := ⟨.nil, .nil⟩

variable {set : List (Int × String)}

theorem Ordered.filter (h : Ordered set) (p : Int × String → Bool) : Ordered (set.filter p) :=
  ⟨h.scores.filter p, (List.filter_sublist.map _).nodup h.nodup⟩

theorem Ordered.insertScore (h : Ordered set) (score : Int) (member : String) :
    Ordered (insertScore score member set) := by
  refine ⟨?_, ?_⟩
  · have hrest : (set.filter fun e => e.2 ≠ member).Pairwise fun a b => a.1 ≤ b.1 := h.scores.filter _
    exact List.Pairwise.orderedInsert _ _ hrest
  · refine List.nodup_iff_count_le_one.mpr fun id => ?_
    rw [count_members_insertScore]
    split
    · exact Nat.le_refl 1
    · exact List.nodup_iff_count_le_one.mp h.nodup id

/-- The score is in the range that is moved. -/
def Due (now : Nat) (e : Int × String) : Prop := 0 ≤ e.1 ∧ e.1 ≤ (now : Int)

instance (now : Nat) (e : Int × String) : Decidable (Due now e) := inferInstanceAs (Decidable (_ ∧ _))

def readyAt (now : Nat) (set : List (Int × String)) : List (Int × String) := set.filter (Due now ·)

/-- An entry is known by its member. -/
theorem Ordered.eq_of_member (h : Ordered set) {a b : Int × String} (ha : a ∈ set) (hb : b ∈ set)
    (hmember : a.2 = b.2) : a = b :=
  List.inj_on_of_nodup_map h.nodup ha hb hmember

theorem Ordered.eq_of_members {l l' : List (Int × String)} (h : Ordered set) (hl : ∀ e ∈ l, e ∈ set)
    (hl' : ∀ e ∈ l', e ∈ set) (heq : members l = members l') : l = l' := by
  induction l generalizing l' with
  | nil => exact (List.map_eq_nil_iff.mp heq.symm).symm
  | cons e l ih =>
    obtain _ | ⟨e', l'⟩ := l'
    · cases heq
    · obtain ⟨hmember, hrest⟩ := List.cons.inj heq
      obtain ⟨he, hl⟩ := List.forall_mem_cons.mp hl
      obtain ⟨he', hl'⟩ := List.forall_mem_cons.mp hl'
      rw [h.eq_of_member he he' hmember, ih hl hl' hrest]

/-! ### Moving what is due -/

/-- Of the ids, one after another, those that the set still has. -/
def movedBy : (ids : List String) → (set : List (Int × String)) → List String
  | [], _ => []
  | id :: ids, set => (if id ∈ members set then [id] else []) ++ movedBy ids (set.filter fun e => e.2 ≠ id)

theorem mem_members_filter {member id : String} :
    id ∈ members (set.filter fun e => e.2 ≠ member) ↔ id ∈ members set ∧ id ≠ member := by
  simp only [members, List.mem_map, List.mem_filter, decide_eq_true_eq]
  constructor
  · rintro ⟨e, ⟨he, hne⟩, rfl⟩
    exact ⟨⟨e, he, rfl⟩, hne⟩
  · rintro ⟨⟨e, he, rfl⟩, hne⟩
    exact ⟨e, ⟨he, hne⟩, rfl⟩

theorem mem_movedBy {ids : List String} {id : String} :
    id ∈ movedBy ids set ↔ id ∈ ids ∧ id ∈ members set := by
  induction ids generalizing set with
  | nil => simp [movedBy]
  | cons first ids ih =>
    rw [movedBy, List.mem_append, ih, mem_members_filter, List.mem_cons]
    by_cases hfirst : id = first
    · subst hfirst
      by_cases hmem : id ∈ members set <;> simp [hmem]
    · by_cases hmem : first ∈ members set <;> simp [hmem, hfirst]

theorem movedBy_eq_self {ids : List String} (hids : ids.Nodup) (hset : ∀ id ∈ ids, id ∈ members set) :
    movedBy ids set = ids := by
  induction ids generalizing set with
  | nil => rfl
  | cons first ids ih =>
    obtain ⟨hfresh, hids⟩ := List.nodup_cons.mp hids
    obtain ⟨hfirst, hrest⟩ := List.forall_mem_cons.mp hset
    have hkept : ∀ id ∈ ids, id ∈ members (set.filter fun e => e.2 ≠ first) := by
      intro id hid
      refine mem_members_filter.mpr ⟨hrest id hid, ?_⟩
      rintro rfl
      exact hfresh hid
    rw [movedBy, if_pos hfirst, ih hids hkept]
    rfl

section Move
variable (q : String) (now : Nat) (s : Store)

theorem lanes_moveReady (id : String) : lanes (moveReady q s id) = Function.update (lanes s) q
    { lanes s q with
      waiting := (lanes s q).waiting ++ (if id ∈ members (lanes s q).delayed then [id] else [])
      delayed := (lanes s q).delayed.filter fun e => e.2 ≠ id } := by
  by_cases h : id ∈ members (lanes s q).delayed
  · rw [lanes_moveReady_of_mem s q id h, if_pos h]
  · have hkeep : (lanes s q).delayed.filter (fun e => e.2 ≠ id) = (lanes s q).delayed := by
      refine List.filter_eq_self.mpr fun e he => decide_eq_true fun heq => h ?_
      rw [← heq]
      exact List.mem_map_of_mem he
    rw [lanes_moveReady_of_not_mem s q id h, if_neg h, hkeep, List.append_nil]
    exact (Function.update_eq_self q (lanes s)).symm

/-- Each id that is still in the set leaves it for the end of the waiting list. -/
theorem lanes_foldl_moveReady (ids : List String) :
    lanes (ids.foldl (moveReady q) s) = Function.update (lanes s) q
      { lanes s q with
        waiting := (lanes s q).waiting ++ movedBy ids (lanes s q).delayed
        delayed := (lanes s q).delayed.filter fun e => e.2 ∉ ids } := by
  induction ids generalizing s with
  | nil =>
    have hall : (lanes s q).delayed.filter (fun e => e.2 ∉ []) = (lanes s q).delayed := by simp
    rw [hall, movedBy, List.append_nil]
    exact (Function.update_eq_self q (lanes s)).symm
  | cons id ids ih =>
    have hfilter : ((lanes s q).delayed.filter fun e => e.2 ≠ id).filter (fun e => e.2 ∉ ids) =
        (lanes s q).delayed.filter fun e => e.2 ∉ id :: ids := by
      rw [List.filter_filter]
      apply List.filter_congr
      intro e _
      simp [Bool.and_comm]
    rw [List.foldl_cons, ih, lanes_moveReady, Function.update_self, Function.update_idem, hfilter, movedBy,
      List.append_assoc]

theorem zrangebyscore_eq : zrangebyscore (delayedKey q) 0 now s.sortedSets = members (readyAt now (lanes s q).delayed) :=
  rfl

variable {q s}

theorem filter_not_ready {set : List (Int × String)} (hset : Ordered set) :
    set.filter (fun e => e.2 ∉ members (readyAt now set)) = set.filter (¬ Due now ·) := by
  apply List.filter_congr
  intro e he
  refine decide_eq_decide.mpr (not_congr ?_)
  constructor
  · intro hmem
    obtain ⟨e', he', hmember⟩ := List.mem_map.mp hmem
    obtain ⟨he', hready⟩ := List.mem_filter.mp he'
    rw [← hset.eq_of_member he' he hmember]
    exact of_decide_eq_true hready
  · exact fun hready => List.mem_map_of_mem (List.mem_filter.mpr ⟨he, decide_eq_true hready⟩)

/-- The due ids, in ascending score, come behind those that wait. -/
theorem lanes_moveDelayedToWaiting (hset : Ordered (lanes s q).delayed) :
    lanes (moveDelayedToWaiting now q s) = Function.update (lanes s) q
      { lanes s q with
        waiting := (lanes s q).waiting ++ members (readyAt now (lanes s q).delayed)
        delayed := (lanes s q).delayed.filter (¬ Due now ·) } := by
  have hnodup : (members (readyAt now (lanes s q).delayed)).Nodup := (hset.filter _).nodup
  have hmem : ∀ id ∈ members (readyAt now (lanes s q).delayed), id ∈ members (lanes s q).delayed :=
    fun id hid => (List.filter_sublist.map _).subset hid
  rw [moveDelayedToWaiting, zrangebyscore_eq, lanes_foldl_moveReady, movedBy_eq_self hnodup hmem, filter_not_ready now hset]

end Move

/-! ### Pops -/

/-- The ids that `n` pops take. -/
def popIds (q : String) : (n : Nat) → (s : Store) → List String
  | 0, _ => []
  | n + 1, s => (rpop (waitingKey q) s.lists).1.toList ++ popIds q n (pop q s).2

/-- What `n` pops return. -/
def popJobs (q : String) : (n : Nat) → (s : Store) → List (Option Job)
  | 0, _ => []
  | n + 1, s => (pop q s).1 :: popJobs q n (pop q s).2

/-- Successive pops take these ids, return their jobs, and leave nothing. -/
structure Pops (q : String) (s : Store) (ids : List String) : Prop where
  taken : popIds q ids.length s = ids
  returned : popJobs q ids.length s = ids.map fun id => (record s q id).bind Record.read
  all : ids.length = (lanes s q).waiting.length

/-- A pop takes the last id of the waiting list, and the next one the one before. -/
theorem pops_reverse {q : String} {w : List String} {s : Store} (h : (lanes s q).waiting = w) : Pops q s w.reverse := by
  induction w using List.reverseRecOn generalizing s with
  | nil => exact ⟨rfl, rfl, by rw [h, List.reverse_nil]⟩
  | append_singleton w id ih =>
    have hpop := pop_snoc s q id h
    have hnext : (lanes (popped q id s) q).waiting = w := by
      rw [lanes_popped s q id h, Function.update_self]
    have hrest := ih hnext
    have hid : (rpop (waitingKey q) s.lists).1 = some id := by
      show (items s.lists (waitingKey q)).getLast? = some id
      rw [show items s.lists (waitingKey q) = w ++ [id] from h, List.getLast?_concat]
    refine ⟨?_, ?_, by rw [h, List.length_reverse]⟩
    · rw [List.reverse_concat, List.length_cons, popIds, hid, hpop, hrest.taken]
      rfl
    · rw [List.reverse_concat, List.length_cons, popJobs, hpop, hrest.returned]
      rfl

theorem pops_iff {q : String} {s : Store} {ids : List String} : Pops q s ids ↔ ids = (lanes s q).waiting.reverse := by
  have hwaiting := pops_reverse (rfl : (lanes s q).waiting = _)
  constructor
  · intro h
    rw [← h.taken, ← hwaiting.taken, List.length_reverse, h.all]
  · rintro rfl
    exact hwaiting

/-! ### The order of the due jobs -/

/-- The pops after a move take the due jobs by their due times, and then what waited before in its order. -/
def RetriesInOrder (q : String) (now : Nat) (s : Store) : Prop :=
  ∃ ready waiting, ready.Perm (readyAt now (lanes s q).delayed) ∧ (ready.Pairwise fun a b => a.1 ≤ b.1) ∧
    Pops q s waiting ∧ Pops q (moveDelayedToWaiting now q s) (members ready ++ waiting)

/-- A move takes no other job out of a delayed set, does nothing to another queue, and doing it again does nothing. -/
structure MovesOnlyReady (q : String) (now : Nat) (s : Store) : Prop where
  delayed : (lanes (moveDelayedToWaiting now q s) q).delayed =
    (lanes s q).delayed.filter (¬ Due now ·)
  others : ∀ q' ≠ q, lanes (moveDelayedToWaiting now q s) q' = lanes s q'
  again : moveDelayedToWaiting now q (moveDelayedToWaiting now q s) = moveDelayedToWaiting now q s

section Order
variable {q : String} {now : Nat} {s : Store}

theorem movesOnlyReady (hset : Ordered (lanes s q).delayed) : MovesOnlyReady q now s := by
  have hlanes := lanes_moveDelayedToWaiting now hset
  have hdelayed : (lanes (moveDelayedToWaiting now q s) q).delayed =
      (lanes s q).delayed.filter (¬ Due now ·) := by
    rw [hlanes, Function.update_self]
  refine ⟨hdelayed, fun q' hq' => ?_, ?_⟩
  · rw [hlanes, Function.update_of_ne hq']
  · have hnone : readyAt now (lanes (moveDelayedToWaiting now q s) q).delayed = [] := by
      rw [hdelayed, readyAt, List.filter_filter]
      refine List.filter_eq_nil_iff.mpr fun e _ h => ?_
      simp only [Bool.and_eq_true, decide_eq_true_eq] at h
      exact h.2 h.1
    conv_lhs => rw [moveDelayedToWaiting, zrangebyscore_eq, hnone]
    rfl

/-- The pops take the due jobs in the reverse order of the set. -/
theorem pops_moveDelayedToWaiting_iff (hset : Ordered (lanes s q).delayed) {ids : List String} :
    Pops q (moveDelayedToWaiting now q s) ids ↔
      ids = (members (readyAt now (lanes s q).delayed)).reverse ++ (lanes s q).waiting.reverse := by
  rw [pops_iff, lanes_moveDelayedToWaiting now hset, Function.update_self, List.reverse_append]

theorem retriesInOrder_iff (hset : Ordered (lanes s q).delayed) :
    RetriesInOrder q now s ↔
      ∀ a ∈ readyAt now (lanes s q).delayed, ∀ b ∈ readyAt now (lanes s q).delayed, a.1 = b.1 := by
  have hready : Ordered (readyAt now (lanes s q).delayed) := hset.filter _
  constructor
  · rintro ⟨ready, waiting, hperm, hsorted, hwaiting, hpops⟩
    obtain rfl := pops_iff.mp hwaiting
    have hmembers : members ready = members (readyAt now (lanes s q).delayed).reverse := by
      rw [members, members, List.map_reverse]
      exact List.append_cancel_right ((pops_moveDelayedToWaiting_iff hset).mp hpops)
    -- An id has one score, so the entries are those of the set, the other way round.
    have hreverse : ready = (readyAt now (lanes s q).delayed).reverse :=
      hready.eq_of_members (fun e he => hperm.mem_iff.mp he) (fun e he => List.mem_reverse.mp he) hmembers
    have hequal : (readyAt now (lanes s q).delayed).Pairwise fun a b => a.1 = b.1 := by
      rw [hreverse, List.pairwise_reverse] at hsorted
      exact (hready.scores.and hsorted).imp fun h => Int.le_antisymm h.1 h.2
    intro a ha b hb
    exact List.Pairwise.forall_of_forall_of_flip (R := fun a b : Int × String => a.1 = b.1) (fun _ _ => rfl) hequal
      (hequal.imp Eq.symm) ha hb
  · intro hequal
    refine ⟨(readyAt now (lanes s q).delayed).reverse, _, List.reverse_perm _, ?_, pops_iff.mpr rfl, ?_⟩
    · refine List.pairwise_of_forall_mem_list fun a ha b hb => ?_
      exact Int.le_of_eq (hequal a (List.mem_reverse.mp ha) b (List.mem_reverse.mp hb))
    · rw [pops_moveDelayedToWaiting_iff hset, members, members, List.map_reverse]

end Order

/-- Retried jobs keep the order of their due times exactly when those that are due together have one due time. -/
theorem retries_order (q : String) (now : Nat) (s : Store) (hset : Ordered (lanes s q).delayed) :
    RetriesInOrder q now s ∧ MovesOnlyReady q now s ↔
      ∀ a ∈ readyAt now (lanes s q).delayed, ∀ b ∈ readyAt now (lanes s q).delayed, a.1 = b.1 :=
  ⟨fun h => (retriesInOrder_iff hset).mp h.1, fun h => ⟨(retriesInOrder_iff hset).mpr h, movesOnlyReady hset⟩⟩

/-- Two jobs put off, the first until 1 and the second until 2. -/
def twoRetries : Store :=
  (Store.empty.onSets (zadd (delayedKey "mail") 1 "first")).onSets (zadd (delayedKey "mail") 2 "second")

theorem ordered_twoRetries : Ordered (lanes twoRetries "mail").delayed := by
  rw [twoRetries, lanes_zadd, Function.update_self, lanes_zadd, Function.update_self]
  exact (ordered_nil.insertScore 1 "first").insertScore 2 "second"

theorem retries_order_one : RetriesInOrder "mail" 1 twoRetries ∧ MovesOnlyReady "mail" 1 twoRetries :=
  (retries_order "mail" 1 twoRetries ordered_twoRetries).mpr (by decide)

/-- Once both are due, the second is taken first. -/
theorem second_retry_first : ¬ RetriesInOrder "mail" 2 twoRetries ∧
    popIds "mail" 2 (moveDelayedToWaiting 2 "mail" twoRetries) = ["second", "first"] := by
  refine ⟨fun h => ?_, by decide⟩
  have hequal := (retriesInOrder_iff ordered_twoRetries).mp h (1, "first") (by decide) (2, "second") (by decide)
  exact absurd hequal (by decide)

/-! ### Due times -/

/-- The job leaves the delayed set for the waiting list. -/
structure PickedUp (q id : String) (s s' : Store) : Prop where
  delayed : id ∈ members (lanes s q).delayed
  gone : id ∉ members (lanes s' q).delayed
  waiting : ∃ moved, (lanes s' q).waiting = (lanes s q).waiting ++ moved ∧ id ∈ moved

/-- The job is put off until `due`: its record says so, its score is a time from now on, and from then on, and not
before, a move picks it up. -/
structure Schedules (q id : String) (now due : Nat) (s : Store) : Prop where
  processAt : ∃ job, record s q id = some (.job job) ∧ job.processAt = some due
  score : ∃ score, (score, id) ∈ (lanes s q).delayed ∧ (now : Int) ≤ score ∧ score ≤ 2 ^ 63 - 1
  pickedUp : ∀ now' < 2 ^ 63, PickedUp q id s (moveDelayedToWaiting now' q s) ↔ due ≤ now'

section Due
variable {q id : String} {s : Store} {now delay : Nat} {set : List (Int × String)} {score : Int}

theorem mem_insertScore {e : Int × String} :
    e ∈ insertScore score id set ↔ e = (score, id) ∨ e ∈ set ∧ e.2 ≠ id := by
  rw [insertScore, (List.perm_orderedInsert _ _ _).mem_iff, List.mem_cons, List.mem_filter, decide_eq_true_eq]

/-- A move picks up the job whose score it just got when that is in its range. -/
theorem pickedUp_iff (now' : Nat) (hdelayed : (lanes s q).delayed = insertScore score id set) :
    PickedUp q id s (moveDelayedToWaiting now' q s) ↔ 0 ≤ score ∧ score ≤ now' := by
  have hin : (score, id) ∈ (lanes s q).delayed := by
    rw [hdelayed]
    exact mem_insertScore.mpr (.inl rfl)
  have hready : id ∈ members (readyAt now' (lanes s q).delayed) ↔ 0 ≤ score ∧ score ≤ now' := by
    constructor
    · intro h
      obtain ⟨e, he, hmember⟩ := List.mem_map.mp h
      obtain ⟨he, hdue⟩ := List.mem_filter.mp he
      rw [hdelayed] at he
      rcases mem_insertScore.mp he with heq | ⟨-, hne⟩
      · rw [heq] at hdue
        exact of_decide_eq_true hdue
      · exact absurd hmember hne
    · exact fun h => List.mem_map_of_mem (List.mem_filter.mpr ⟨hin, decide_eq_true h⟩)
  have hlanes := lanes_foldl_moveReady q s (members (readyAt now' (lanes s q).delayed))
  rw [← hready]
  constructor
  · intro h
    by_contra hnot
    apply h.gone
    rw [moveDelayedToWaiting, zrangebyscore_eq, hlanes, Function.update_self]
    exact List.mem_map_of_mem (List.mem_filter.mpr ⟨hin, decide_eq_true hnot⟩)
  · intro h
    refine ⟨List.mem_map_of_mem hin, ?_, ?_⟩
    · rw [moveDelayedToWaiting, zrangebyscore_eq, hlanes, Function.update_self]
      intro hmem
      obtain ⟨e, he, rfl⟩ := List.mem_map.mp hmem
      exact of_decide_eq_true (List.mem_filter.mp he).2 h
    · rw [moveDelayedToWaiting, zrangebyscore_eq, hlanes, Function.update_self]
      exact ⟨_, rfl, mem_movedBy.mpr ⟨h, List.mem_map_of_mem hin⟩⟩

/-- A job is put off exactly when neither the sum nor its score leaves its range. -/
theorem schedules_iff (hstored : ∃ job, record s q id = some (.job job) ∧ job.processAt = some (addMs now delay))
    (hdelayed : (lanes s q).delayed = insertScore (asScore (addMs now delay)) id set) :
    Schedules q id now (now + delay) s ↔ now + delay < 2 ^ 63 := by
  obtain ⟨job, hrecord, hjob⟩ := hstored
  constructor
  · intro h
    obtain ⟨job', hjob', hdue⟩ := h.processAt
    cases hrecord.symm.trans hjob'
    have hsum : addMs now delay = now + delay := Option.some.inj (hjob.symm.trans hdue)
    obtain ⟨score, hmem, hnow, -⟩ := h.score
    rw [hdelayed] at hmem
    have hscore : score = asScore (now + delay) := by
      rcases mem_insertScore.mp hmem with heq | ⟨-, hne⟩
      · rw [← hsum]
        exact congrArg Prod.fst heq
      · exact absurd rfl hne
    have hu64 : now + delay < 2 ^ 64 := by
      rw [← hsum]
      exact Nat.mod_lt _ (Nat.two_pow_pos 64)
    by_contra hlarge
    rw [asScore, if_neg hlarge] at hscore
    omega
  · intro h
    have hsum : addMs now delay = now + delay := Nat.mod_eq_of_lt (by omega)
    have hscore : asScore (now + delay) = ((now + delay : Nat) : Int) := if_pos h
    rw [hsum, hscore] at hdelayed
    refine ⟨⟨job, hrecord, by rw [hjob, hsum]⟩, ⟨((now + delay : Nat) : Int), ?_, ?_, ?_⟩, fun now' _ => ?_⟩
    · rw [hdelayed]
      exact mem_insertScore.mpr (.inl rfl)
    · omega
    · omega
    · rw [pickedUp_iff now' hdelayed]
      omega

end Due

/-- The backoff leaves the range of a score when the product does, saturated or not. -/
theorem add_calculateBackoff_lt_iff {now : Nat} (hnow : now < 2 ^ 63) (job : Job) :
    now + job.calculateBackoff < 2 ^ 63 ↔ now + job.backoffDelayMs * 2 ^ (job.attemptsMade - 1) < 2 ^ 63 := by
  unfold Job.calculateBackoff
  generalize 2 ^ (job.attemptsMade - 1) = factor
  generalize job.backoffDelayMs = delay
  obtain rfl | hdelay := Nat.eq_zero_or_pos delay
  · simp
  · by_cases hfactor : factor ≤ 2 ^ 64 - 1
    · rw [Nat.min_eq_left hfactor]
      omega
    · have hfactor' : 2 ^ 64 - 1 < factor := Nat.lt_of_not_le hfactor
      have hproduct : factor ≤ delay * factor := Nat.le_mul_of_pos_left _ hdelay
      have hsaturated : 2 ^ 64 - 1 ≤ delay * (2 ^ 64 - 1) := Nat.le_mul_of_pos_left _ hdelay
      rw [Nat.min_eq_right (Nat.le_of_lt hfactor')]
      omega

theorem record_setJob_self (s : Store) (q id : String) (r : Record) : record (s.setJob (jobKey q id) r) q id = some r := by
  rw [record, setJob, getJob, Assoc.get?_insert, if_pos rfl]

/-- A pushed job is due after its delay, and a job that failed after its backoff, exactly when the sum fits a score. -/
theorem scheduling_exact (q id : String) (now : Nat) (hnow : now < 2 ^ 53) (s : Store) :
    (∀ cfg data delayMs traceparent baggage, delayMs < 2 ^ 64 →
      (Schedules q id now (now + delayMs) (pushDelayed cfg id now q data delayMs traceparent baggage s) ↔
        now + delayMs < 2 ^ 63)) ∧
    ∀ configs error job retried, record s q id = some (.job job) →
      retried = (applySubscriptionOverrides configs job).incrementAttempts → ¬ retried.isExhausted →
      (Schedules q id now (now + retried.calculateBackoff) (nack configs now q id error s) ↔
        now + retried.backoffDelayMs * 2 ^ (retried.attemptsMade - 1) < 2 ^ 63) := by
  refine ⟨fun cfg data delayMs traceparent baggage _ => ?_, fun configs error job retried hjob hretried hleft => ?_⟩
  · have hdelayed : (lanes (pushDelayed cfg id now q data delayMs traceparent baggage s) q).delayed =
        insertScore (asScore (addMs now delayMs)) id (lanes s q).delayed := by
      rw [pushDelayed, lanes_zadd, Function.update_self, lanes_setJob]
    exact schedules_iff ⟨_, record_setJob_self .., rfl⟩ hdelayed
  · rw [← add_calculateBackoff_lt_iff (by omega)]
    have hget : s.getJob (jobKey q id) = some (.job job) := hjob
    have hnack : nack configs now q id error s =
        ((s.onLists (lrem (activeKey q) 1 id)).setJob (jobKey q id)
          (.job { retried with processAt := some (addMs now retried.calculateBackoff) })).onSets
          (zadd (delayedKey q) (asScore (addMs now retried.calculateBackoff)) id) := by
      simp only [nack, hget, ← hretried, if_neg hleft]
    rw [hnack]
    refine schedules_iff ⟨_, record_setJob_self .., rfl⟩ (?_ : _ = insertScore _ _ (lanes s q).delayed)
    rw [lanes_zadd, Function.update_self, lanes_setJob, lanes_lrem_active, Function.update_self]

/-- A job with its first try still to come. -/
def fresh : Job := .newWithGroup "a" 0 "mail" .null 3 1000 none none none

theorem scheduling_exact_seconds :
    Schedules "mail" "a" 5000 8000 (pushDelayed ⟨3, 1000⟩ "a" 5000 "mail" .null 3000 none none Store.empty) ∧
    Schedules "mail" "a" 5000 6000
      (nack [] 5000 "mail" "a" "boom" (Store.empty.setJob (jobKey "mail" "a") (.job fresh))) :=
  ⟨((scheduling_exact "mail" "a" 5000 (by decide) Store.empty).1 ⟨3, 1000⟩ .null 3000 none none (by decide)).mpr
      (by decide),
    ((scheduling_exact "mail" "a" 5000 (by decide) _).2 [] "boom" fresh fresh.incrementAttempts
      (record_setJob_self ..) rfl (by decide)).mpr (by decide)⟩

/-- A delay of `u64::MAX` puts a job off until the millisecond before now, and a backoff of `2^63` until a time before
1970, where no move looks. -/
theorem longest_delay_wraps :
    ¬ Schedules "mail" "a" 1000 (1000 + (2 ^ 64 - 1))
      (pushDelayed ⟨3, 1000⟩ "a" 1000 "mail" .null (2 ^ 64 - 1) none none Store.empty) ∧
    addMs 1000 (2 ^ 64 - 1) = 999 ∧
    ¬ Schedules "mail" "a" 1000 (1000 + 2 ^ 63)
      (nack [] 1000 "mail" "a" "boom"
        (Store.empty.setJob (jobKey "mail" "a") (.job { fresh with backoffDelayMs := 2 ^ 63 }))) := by
  refine ⟨fun h => ?_, by decide, fun h => ?_⟩
  · obtain ⟨job, hjob, hdue⟩ := h.processAt
    cases hjob
    exact absurd hdue (by decide)
  · obtain ⟨score, hmem, hnow, -⟩ := h.score
    have hset : (lanes (nack [] 1000 "mail" "a" "boom"
        (Store.empty.setJob (jobKey "mail" "a") (.job { fresh with backoffDelayMs := 2 ^ 63 }))) "mail").delayed =
        [(1000 - 2 ^ 63, "a")] := by decide
    rw [hset] at hmem
    obtain rfl : score = 1000 - 2 ^ 63 := congrArg Prod.fst (List.mem_singleton.mp hmem)
    exact absurd hnow (by decide)

end Iii.Queue
