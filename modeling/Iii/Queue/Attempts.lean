import Iii.Queue.Conserve

/-! What `attempts_made` counts.

Beside the books of a run stands a count for each job: one for every nack since the job was
put in. A redrive starts it again from none, and an inline retry writes its own. The
`attempts_made` of every record is that count, whoever nacked and for whatever reason. -/
namespace Iii.Queue
open Lib Store

/-- By queue and id. -/
abbrev Counts : Type := String × String → Nat

/-- The count after an operation; `attempts_made` is a `u32`. -/
def Op.count (st : State) (n : Counts) : Op → Counts
  | .push _ id _ queue _ _ _ | .pushFifo _ id _ queue _ _ _ _ | .pushDelayed _ id _ queue _ _ _ _ =>
    Function.update n (queue, id) 0
  | .pushJob job => Function.update n (job.queue, job.id) job.attemptsMade
  | .nack _ _ queue jobId _ => Function.update n (queue, jobId) ((n (queue, jobId) + 1) % 2 ^ 32)
  | .retryInline queue job => Function.update n (queue, job.id) job.attemptsMade
  | .dlqRedrive queue => fun p => if p.1 = queue ∧ p.2 ∈ (lanes st.store queue).deadIds then 0 else n p
  | .dlqRedriveMessage queue messageId =>
    if (Queue.dlqRedriveMessage queue messageId st.store).1 then Function.update n (queue, messageId) 0 else n
  | .pop _ | .ack _ _ | .requeue _ _ | .exhaustInline _ _ _ _ | .moveDelayedToWaiting _ _
  | .dlqDiscardMessage _ _ => n

/-- Every record has its job's count. -/
def Counted (s : Store) (n : Counts) : Prop :=
  ∀ q id job, Plain id → record s q id = some (.job job) → job.attemptsMade = n (q, id)

namespace Counted
variable {s s' : Store} {n : Counts} {q id : String}

theorem same (h : Counted s n) (hrecord : record s' = record s) : Counted s' n := by
  intro q id job hid hjob
  rw [hrecord] at hjob
  exact h q id job hid hjob

/-- One job's record is written. -/
theorem set (h : Counted s n) (job : Job)
    (hset : ∀ q' id', Plain id' → record s' q' id' =
      if q = q' ∧ id = id' then some (.job job) else record s q' id') :
    Counted s' (Function.update n (q, id) job.attemptsMade) := by
  intro q' id' job' hid' hjob
  rw [hset q' id' hid'] at hjob
  split at hjob
  · rename_i heq
    obtain ⟨rfl, rfl⟩ := heq
    cases hjob
    rw [Function.update_self]
  · rename_i hne
    rw [Function.update_of_ne (fun heq => hne ⟨(congrArg Prod.fst heq).symm, (congrArg Prod.snd heq).symm⟩)]
    exact h q' id' job' hid' hjob

/-- One job's record is gone; its count may be anything. -/
theorem gone (h : Counted s n) (k : Nat)
    (hgone : ∀ q' id', Plain id' → record s' q' id' = if q = q' ∧ id = id' then none else record s q' id') :
    Counted s' (Function.update n (q, id) k) := by
  intro q' id' job' hid' hjob
  rw [hgone q' id' hid'] at hjob
  split at hjob
  · cases hjob
  · rename_i hne
    rw [Function.update_of_ne (fun heq => hne ⟨(congrArg Prod.fst heq).symm, (congrArg Prod.snd heq).symm⟩)]
    exact h q' id' job' hid' hjob

theorem delete (h : Counted s n) (hid : Plain id) (hrecord : record s' = record (s.deleteJob (jobKey q id))) :
    Counted s' n := by
  have hgone : Counted s' (Function.update n (q, id) (n (q, id))) := by
    apply h.gone
    intro q' id' hid'
    rw [hrecord, record_deleteJob _ _ hid _ hid']
  rwa [Function.update_eq_self] at hgone

theorem pop (h : Counted s n) (q : String) : Counted (pop q s).2 n := by
  rcases List.eq_nil_or_concat' (lanes s q).waiting with hw | ⟨w, id, hw⟩
  · rw [pop_nil s q hw]
    exact h
  · rw [pop_snoc s q id hw]
    exact h.same (record_popped s q id)

theorem moveDelayedToWaiting (h : Counted s n) (now : Nat) (q : String) :
    Counted (moveDelayedToWaiting now q s) n := by
  unfold Queue.moveDelayedToWaiting
  generalize zrangebyscore (delayedKey q) 0 now s.sortedSets = ready
  induction ready generalizing s with
  | nil => exact h
  | cons id rest ih => exact ih (h.same (record_moveReady s q id))

end Counted

namespace Inv
variable {st : State} {n : Counts} (inv : Inv st)

theorem plain_of_delivered (inv : Inv st) {q id : String} (h : (q, id) ∈ st.delivered) : Plain id :=
  inv.plain_of_live (inv.live_of_delivered h)

/-- What a nack does to a delivered job: it is a job with a record, and the attempt counts. -/
theorem nack_cases (inv : Inv st) {q id : String} (h : (q, id) ∈ st.delivered) (configs : Configs) (now : Nat)
    (error : String) : ∃ job job', record st.store q id = some (.job job) ∧ job'.id = id ∧
      job'.attemptsMade = (job.attemptsMade + 1) % 2 ^ 32 ∧
      job'.maxAttempts = (applySubscriptionOverrides configs job).maxAttempts ∧
      ((job'.maxAttempts ≤ job'.attemptsMade ∧ Queue.nack configs now q id error st.store =
          Queue.moveToDlq q job' error now st.store) ∨
        (job'.attemptsMade < job'.maxAttempts ∧ ∃ score, Queue.nack configs now q id error st.store =
          ((st.store.onLists (lrem (activeKey q) 1 id)).setJob (jobKey q id) (.job job')).onSets
            (zadd (delayedKey q) score id))) := by
  obtain ⟨job, hrecord, rfl⟩ := inv.exists_job (inv.plain_of_delivered h) (inv.live_of_delivered h)
  have hget : st.store.getJob (jobKey q job.id) = some (.job job) := hrecord
  have hjob : (applySubscriptionOverrides configs job).incrementAttempts.id = job.id ∧
      (applySubscriptionOverrides configs job).incrementAttempts.attemptsMade =
        (job.attemptsMade + 1) % 2 ^ 32 := by
    unfold applySubscriptionOverrides
    split <;> exact ⟨rfl, rfl⟩
  by_cases hexhausted : (applySubscriptionOverrides configs job).incrementAttempts.isExhausted = true
  · refine ⟨job, _, hrecord, hjob.1, hjob.2, rfl, .inl ⟨of_decide_eq_true hexhausted, ?_⟩⟩
    simp only [Queue.nack, hget, hexhausted, if_true]
  · refine ⟨job, { (applySubscriptionOverrides configs job).incrementAttempts with
      processAt := some (addMs now (applySubscriptionOverrides configs job).incrementAttempts.calculateBackoff) },
      hrecord, hjob.1, hjob.2, rfl, .inr ⟨?_, asScore (addMs now
        (applySubscriptionOverrides configs job).incrementAttempts.calculateBackoff), ?_⟩⟩
    · simpa [Job.isExhausted] using hexhausted
    · simp only [Queue.nack, hget, hexhausted, Bool.false_eq_true, if_false]

theorem counted_nack (inv : Inv st) (h : Counted st.store n) {q id : String} (hd : (q, id) ∈ st.delivered)
    (configs : Configs) (now : Nat) (error : String) :
    Counted (st.apply (.nack configs now q id error)).store
      (Op.count st n (.nack configs now q id error)) := by
  have hid := inv.plain_of_delivered hd
  obtain ⟨job, job', hrecord, hid', hattempts, -, ⟨-, hnack⟩ | ⟨-, score, hnack⟩⟩ :=
    inv.nack_cases hd configs now error
  · have hgone : ∀ q' id', Plain id' → record (Queue.nack configs now q id error st.store) q' id' =
        if q = q' ∧ id = id' then none else record st.store q' id' := by
      intro q' id' hplain
      rw [hnack, ← hid']
      exact record_deleteJob st.store q (hid' ▸ hid) q' hplain
    exact h.gone _ hgone
  · have hset : ∀ q' id', Plain id' → record (Queue.nack configs now q id error st.store) q' id' =
        if q = q' ∧ id = id' then some (.job job') else record st.store q' id' := by
      intro q' id' hplain
      rw [hnack]
      exact record_setJob st.store q hid _ q' hplain
    rw [Op.count, ← h q id job hid hrecord, ← hattempts]
    exact h.set job' hset

theorem counted_redriveJob (inv : Inv st) (h : Counted st.store n) {q : String} {job : Job} {s' : Store}
    (htakes : Takes st.store q job s') :
    Counted (Queue.redriveJob q job s') (Function.update n (q, job.id) 0) := by
  obtain ⟨-, -, -, hid⟩ := inv.only_dead htakes
  obtain ⟨-, -, -, -, -, -, hrecord⟩ := htakes
  exact (h.same hrecord).set { job with attemptsMade := 0 } fun q' id' hid' =>
    record_setJob s' q hid _ q' hid'

theorem counted_redriveLoop (inv : Inv st) (h : Counted st.store n) {q : String}
    (hread : ∀ item ∈ (lanes st.store q).dead, item.parse.isSome) (fuel : Nat)
    (hfuel : (lanes st.store q).dead.length = fuel) :
    Counted (Queue.redriveLoop q fuel st.store).2
      (fun p => if p.1 = q ∧ p.2 ∈ (lanes st.store q).deadIds then 0 else n p) := by
  induction fuel generalizing st n with
  | zero =>
    rw [Lanes.deadIds, List.length_eq_zero_iff.mp hfuel]
    simpa [Queue.redriveLoop] using h
  | succ fuel ih =>
    obtain ⟨d, item, hdead⟩ : ∃ d item, (lanes st.store q).dead = d ++ [item] := by
      rcases List.eq_nil_or_concat' (lanes st.store q).dead with hnil | hdead
      · rw [hnil] at hfuel
        cases hfuel
      · exact hdead
    obtain ⟨job, hparse⟩ := Option.isSome_iff_exists.mp (hread item (by rw [hdead]; simp))
    obtain ⟨-, error, failedAt, rfl⟩ := Payload.parse_eq_some hparse
    have htakes := takes_rpop hdead hparse
    have hrest : (lanes (Queue.redriveJob q job (st.store.onDlqs fun dlqs => (rpop (dlqKey q) dlqs).2))
        q).dead = d := by
      rw [lanes_redriveJob, Function.update_self, lanes_rpop_dlq, Function.update_self, hdead,
        List.dropLast_concat]
    have hread' : ∀ item' ∈ d, item'.parse.isSome := by
      intro item' hitem'
      apply hread
      rw [hdead]
      exact List.mem_append_left _ hitem'
    have hlength : d.length = fuel := by
      rw [hdead, List.length_append] at hfuel
      exact Nat.succ.inj hfuel
    rw [redriveLoop_snoc fuel hdead, hparse]
    have hloop := ih (inv.redriveJob htakes) (inv.counted_redriveJob h htakes)
      (fun item' hitem' => hread' item' (hrest ▸ hitem')) (hrest ▸ hlength)
    intro q' id job' hid hjob
    rw [hloop q' id job' hid hjob]
    have hids : (lanes st.store q).deadIds = d.filterMap Payload.writtenId ++ [job.id] := by
      rw [Lanes.deadIds, hdead, List.filterMap_append]
      rfl
    simp only [Lanes.deadIds, hrest] at hids ⊢
    simp only [hids, List.mem_append, List.mem_singleton, Function.update_apply, Prod.mk.injEq]
    by_cases hq : q' = q
    · by_cases hmem : id ∈ d.filterMap Payload.writtenId <;> by_cases hjobid : id = job.id <;>
        simp [hq, hmem, hjobid]
    · simp [hq]

/-- Every operation a run may take keeps the counts. -/
theorem counted_apply (inv : Inv st) (h : Counted st.store n) {op : Op} (hallows : st.Allows op)
    (hread : st.Readable op) : Counted (st.apply op).store (op.count st n) := by
  have hpush : ∀ job : Job, Plain job.id →
      Counted (Queue.pushJob job st.store) (Function.update n (job.queue, job.id) job.attemptsMade) :=
    fun job hid => h.set job fun q' id' hid' => record_setJob st.store job.queue hid _ q' hid'
  cases op with
  | push cfg id now queue data traceparent baggage => exact hpush _ hallows.1
  | pushJob job => exact hpush job hallows.1
  | pushFifo cfg id now queue data groupId traceparent baggage => exact hpush _ hallows.1
  | pushDelayed cfg id now queue data delayMs traceparent baggage =>
    exact h.set { Job.newWithGroup id now queue data cfg.maxAttempts cfg.backoffMs none traceparent
      baggage with processAt := some (addMs now delayMs) }
      fun q' id' hid' => record_setJob st.store queue hallows.1 _ q' hid'
  | pop queue =>
    have hstore : (st.apply (.pop queue)).store = (Queue.pop queue st.store).2 := by
      simp only [State.apply]
      split <;> rename_i heq <;> rw [heq]
    rw [hstore]
    exact h.pop queue
  | ack queue jobId => exact h.delete (inv.plain_of_delivered hallows) rfl
  | nack configs now queue jobId error => exact inv.counted_nack h hallows configs now error
  | requeue queue jobId => exact h.same (record_requeue st.store queue jobId)
  | retryInline queue job =>
    have hid := inv.plain_of_delivered hallows
    exact h.set job fun q' id' hid' => record_setJob st.store queue hid _ q' hid'
  | exhaustInline queue job error now => exact h.delete (inv.plain_of_delivered hallows) rfl
  | moveDelayedToWaiting now queue => exact h.moveDelayedToWaiting now queue
  | dlqRedrive queue => exact inv.counted_redriveLoop h hread _ rfl
  | dlqRedriveMessage queue messageId =>
    rcases dlqFindAndRemove_cases messageId (inv.letters queue) with hnone | ⟨job, s', hsome, rfl, htakes⟩
    · simp only [State.apply, Op.count, dlqRedriveMessage, hnone]
      exact h
    · simp only [State.apply, Op.count, dlqRedriveMessage, hsome]
      exact inv.counted_redriveJob h htakes
  | dlqDiscardMessage queue messageId =>
    simp only [State.apply, Op.count, dlqDiscardMessage]
    rcases dlqFindAndRemove_cases messageId (inv.letters queue) with hnone | ⟨job, s', hsome, rfl, htakes⟩
    · simp only [hnone]
      exact h
    · simp only [hsome]
      obtain ⟨-, -, -, hid⟩ := inv.only_dead htakes
      obtain ⟨-, -, -, -, -, -, hrecord⟩ := htakes
      exact (h.same hrecord).delete hid rfl

end Inv

end Iii.Queue
