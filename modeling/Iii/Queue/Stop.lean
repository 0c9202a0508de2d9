import Iii.Queue.Consumer

/-! What a stopped consumer gives back.

A delivery that was registered and never received has its entry in the delivery map until the
clean-up takes it, and by then it is outstanding; so the clean-up nacks it. The nack counts an
attempt like any other: the job comes back delayed, or it is a dead letter when that attempt
was its last. -/
namespace Iii.Queue.Consumer
open Lib

variable {configs : Configs} {queueName : String} {prefetch : Nat} {s s' : State}

/-! ### The delivery map -/

/-- The clean-up has not come to the delivery yet. -/
def Place.Waits (d : Nat) : Place → Prop
  | .cleaning rest | .nacking _ _ rest => d ∈ rest
  | .done => False
  | _ => True

def Place.rest : Place → List Nat
  | .cleaning rest | .nacking _ _ rest => rest
  | _ => []

def Place.nacks (d : Nat) : Place → Prop
  | .nacking deliveryId _ _ => deliveryId = d
  | _ => False

/-- A delivery this task registered and the consumer has not received. -/
def Unreceived (s : State) (d : Nat) : Prop := d ∈ s.registered ∧ d ∉ s.received

/-- The ids of this task are its own, and a delivery that was not received has its entry until the
clean-up has nacked it. -/
structure Kept (s : State) : Prop where
  nodup : s.registered.Nodup
  below : ∀ d ∈ s.registered, d < s.deliveryCounter
  drawn : ∀ d, s.place.drawnId = some d → d < s.deliveryCounter ∧ d ∉ s.registered
  outstanding : s.outstanding ⊆ s.registered
  rest : s.place.rest ⊆ s.registered
  entries : ∀ d, Unreceived s d →
    ((Assoc.get? s.deliveries d).isSome ∧ s.place.Waits d) ∨
      (Assoc.get? s.deliveries d = none ∧ (d ∈ s.returned ∨ s.place.nacks d))

namespace Kept

theorem of_starts (h : Starts prefetch s) : Kept s where
  nodup := by
    rw [h.registered]
    exact List.nodup_nil
  below d hd := by
    rw [h.registered] at hd
    cases hd
  drawn d hd := by
    rw [h.place] at hd
    cases hd
  outstanding := by
    rw [h.outstanding]
    exact List.nil_subset _
  rest := by
    rw [h.place]
    exact List.nil_subset _
  entries d hd := by
    have hregistered := hd.1
    rw [h.registered] at hregistered
    cases hregistered

/-- The task goes on to a place where it has no id in hand; what waits for the clean-up still
does. -/
theorem go (h : Kept s) {place : Place} (hdrawn : place.drawnId = none) (hrest : place.rest ⊆ s.registered)
    (hwaits : ∀ d, Unreceived s d → s.place.Waits d → place.Waits d) (hnacks : ∀ d, ¬s.place.nacks d) :
    Kept { s with place } :=
  { h with
    drawn := fun d hd => by
      rw [hdrawn] at hd
      cases hd
    rest := hrest
    entries := fun d hd => by
      rcases h.entries d hd with ⟨hentry, hw⟩ | ⟨hentry, hreturned | hn⟩
      · exact .inl ⟨hentry, hwaits d hd hw⟩
      · exact .inr ⟨hentry, .inl hreturned⟩
      · exact absurd hn (hnacks d) }

/-- From one place to another, long before the clean-up. -/
theorem early (h : Kept s) {old place : Place} (hplace : s.place = old) (hnacks : ∀ d, ¬old.nacks d)
    (hdrawn : place.drawnId = none) (hrest : place.rest = []) (hwaits : ∀ d, place.Waits d) :
    Kept { s with place } := by
  apply h.go hdrawn
  · rw [hrest]
    exact List.nil_subset _
  · exact fun d _ _ => hwaits d
  · rw [hplace]
    exact hnacks

theorem producer (h : Kept s) {kept unsent unreceived : List Nat}
    (hwindow : Windowed prefetch s kept unsent unreceived)
    (hstep : Producer configs queueName prefetch s s') : Kept s' := by
  cases hstep with
  | closed hplace hclosed =>
    exact h.go rfl h.outstanding (fun d hd _ => hwindow.mem_outstanding hd.1 hd.2) (by simp [hplace, Place.nacks])
  | isOpen hplace hclosed => exact h.early hplace (fun _ => not_false) rfl rfl fun _ => trivial
  | move now hplace =>
    exact { (h.early hplace (fun _ => not_false) rfl rfl fun _ => trivial : Kept { s with place := .popping }) with }
  | empty hplace hpop =>
    exact { (h.early hplace (fun _ => not_false) rfl rfl fun _ => trivial : Kept { s with place := .asleep }) with }
  | pop job hplace hpop =>
    exact { (h.early hplace (fun _ => not_false) rfl rfl fun _ => trivial : Kept { s with place := .popped job }) with }
  | awake hplace => exact h.early hplace (fun _ => not_false) rfl rfl fun _ => trivial
  | draw job hplace =>
    have hgo : Kept { s with place := .popped job } := h.early hplace (fun _ => not_false) rfl rfl fun _ => trivial
    refine { hgo with below := fun d hd => Nat.lt_succ_of_lt (h.below d hd), drawn := ?_ }
    intro d hd
    cases hd
    exact ⟨Nat.lt_succ_self _, fun hmem => Nat.lt_irrefl _ (h.below _ hmem)⟩
  | register deliveryId job hplace =>
    obtain ⟨hbelow, hfresh⟩ := h.drawn deliveryId (by rw [hplace]; rfl)
    constructor
    · rw [List.nodup_append]
      refine ⟨h.nodup, List.nodup_singleton _, ?_⟩
      intro a ha b hb hab
      rw [List.mem_singleton.mp hb] at hab
      exact hfresh (hab ▸ ha)
    · intro d hd
      rcases List.mem_append.mp hd with hd | hd
      · exact h.below d hd
      · rw [List.mem_singleton.mp hd]
        exact hbelow
    · exact fun d hd => by cases hd
    · intro d hd
      rcases List.mem_append.mp hd with hd | hd
      · exact List.mem_append_left _ (h.outstanding hd)
      · exact List.mem_append_right _ hd
    · exact List.nil_subset _
    · intro d hd
      simp only [Assoc.get?_insert]
      rcases List.mem_append.mp hd.1 with hmem | hmem
      · have hne : deliveryId ≠ d := fun heq => hfresh (heq ▸ hmem)
        rw [if_neg hne]
        have hentries := h.entries d ⟨hmem, hd.2⟩
        rw [hplace] at hentries
        exact hentries
      · rw [if_pos (List.mem_singleton.mp hmem).symm]
        exact .inl ⟨rfl, trivial⟩
  | permit msg hplace hclosed hroom => exact h.early hplace (fun _ => not_false) rfl rfl fun _ => trivial
  | refuse msg hplace hclosed =>
    exact h.go rfl h.outstanding (fun d hd _ => hwindow.mem_outstanding hd.1 hd.2) (by simp [hplace, Place.nacks])
  | send msg hplace =>
    exact { (h.early hplace (fun _ => not_false) rfl rfl fun _ => trivial : Kept { s with place := .sent }) with }
  | trim hplace =>
    have hgo : Kept { s with place := .checking } := h.early hplace (fun _ => not_false) rfl rfl fun _ => trivial
    refine { hgo with outstanding := ?_ }
    rw [trim_eq]
    exact List.Subset.trans (List.drop_subset _ _) h.outstanding
  | take deliveryId info rest hplace hentry =>
    have hrest : rest ⊆ s.registered := fun d hd => h.rest (by rw [hplace]; exact List.mem_cons_of_mem _ hd)
    refine { h with drawn := fun d hd => (by cases hd), rest := hrest, entries := ?_ }
    intro d hd
    simp only [Assoc.get?_erase]
    by_cases heq : deliveryId = d
    · rw [if_pos heq]
      exact .inr ⟨rfl, .inr heq⟩
    · rw [if_neg heq]
      rcases h.entries d hd with ⟨hsome, hw⟩ | ⟨hnone, hreturned | hn⟩
      · rw [hplace] at hw
        exact .inl ⟨hsome, (List.mem_cons.mp hw).resolve_left (Ne.symm heq)⟩
      · exact .inr ⟨hnone, .inl hreturned⟩
      · rw [hplace] at hn
        cases hn
  | skip deliveryId rest hplace hentry =>
    have hrest : rest ⊆ s.registered := fun d hd => h.rest (by rw [hplace]; exact List.mem_cons_of_mem _ hd)
    refine { h with drawn := fun d hd => (by cases hd), rest := hrest, entries := ?_ }
    intro d hd
    rcases h.entries d hd with ⟨hsome, hw⟩ | ⟨hnone, hreturned | hn⟩
    · rw [hplace] at hw
      rcases List.mem_cons.mp hw with rfl | hw
      · rw [hentry] at hsome
        cases hsome
      · exact .inl ⟨hsome, hw⟩
    · exact .inr ⟨hnone, .inl hreturned⟩
    · rw [hplace] at hn
      cases hn
  | nack now deliveryId info rest hplace =>
    have hrest : rest ⊆ s.registered := fun d hd => h.rest (by rw [hplace]; exact hd)
    refine { h with drawn := fun d hd => (by cases hd), rest := hrest, entries := ?_ }
    intro d hd
    rcases h.entries d hd with ⟨hsome, hw⟩ | ⟨hnone, hreturned | hn⟩
    · rw [hplace] at hw
      exact .inl ⟨hsome, hw⟩
    · exact .inr ⟨hnone, .inl (List.mem_append_left _ hreturned)⟩
    · rw [hplace] at hn
      exact .inr ⟨hnone, .inl (List.mem_append_right _ (List.mem_singleton.mpr (Eq.symm hn)))⟩
  | finish hplace =>
    apply h.go rfl (List.nil_subset _)
    · intro d _ hw
      rw [hplace] at hw
      cases hw
    · simp [hplace, Place.nacks]

theorem receiver (h : Kept s) (hstep : Receiver configs s s') : Kept s' := by
  cases hstep with
  | receive msg rest hclosed hchannel =>
    refine { h with entries := ?_ }
    intro d hd
    exact h.entries d ⟨hd.1, fun hmem => hd.2 (List.mem_append_left _ hmem)⟩
  | drop => exact { h with }
  | answer deliveryId call hreceived hentry =>
    refine { h with entries := ?_ }
    intro d hd
    have hne : deliveryId ≠ d := fun heq => hd.2 (heq ▸ hreceived)
    simp only [Assoc.get?_erase, if_neg hne]
    exact h.entries d hd
  | perform now call a b hcalls => exact { h with }
  | abandon call a b hcalls => exact { h with }

theorem others (h : Kept s) (hstep : Others queueName s s') : Kept s' := by
  cases hstep with
  | perform op hallows hread hothers =>
    exact { h with }
  | deliver deliveries counter hcounter hothers =>
    refine { h with
      below := fun d hd => (h.below d hd).trans_le hcounter
      drawn := fun d hd => ⟨(h.drawn d hd).1.trans_le hcounter, (h.drawn d hd).2⟩
      entries := ?_ }
    intro d hd
    show ((Assoc.get? deliveries d).isSome ∧ _) ∨ (Assoc.get? deliveries d = none ∧ _)
    rw [hothers d (.inl hd.1)]
    exact h.entries d hd

theorem reachable (h : (system configs queueName prefetch).Reachable s) : Kept s := by
  apply h.invariant (I := Kept)
  · exact fun s hstarts => of_starts hstarts
  · intro s s' hreach h hstep
    obtain ⟨kept, unsent, unreceived, hwindow⟩ := Windowed.reachable hreach
    rcases hstep with hstep | hstep | hstep
    · exact h.producer hwindow hstep
    · exact h.receiver hstep
    · exact h.others hstep

end Kept

/-! ### Who answers for a job -/

/-- What this consumer is to answer for was delivered, and is counted once for each time it was. -/
structure Owned (queueName : String) (s : State) : Prop where
  inv : Inv s.jobs
  counted : Counted s.jobs.store s.attempts
  held : ∀ job, (s.held queueName).count job ≤ s.jobs.delivered.count job

/-- Only an answer takes a delivery off the books. -/
theorem count_delivered_apply (jobs : Queue.State) (op : Op) {job : String × String}
    (h : answers op ≠ some job) : jobs.delivered.count job ≤ (jobs.apply op).delivered.count job := by
  have herase : ∀ job', job' ≠ job → jobs.delivered.count job ≤ (jobs.delivered.erase job').count job :=
    fun job' hne => (List.count_erase_of_ne (Ne.symm hne)).ge
  cases op with
  | pop queue =>
    simp only [Queue.State.apply]
    split
    · exact List.count_le_count_cons
    · exact Nat.le_refl _
  | ack queue jobId => exact herase _ fun heq => h (congrArg some heq)
  | nack configs now queue jobId error => exact herase _ fun heq => h (congrArg some heq)
  | requeue queue jobId => exact herase _ fun heq => h (congrArg some heq)
  | exhaustInline queue job' error now => exact herase _ fun heq => h (congrArg some heq)
  | dlqDiscardMessage queue messageId =>
    simp only [Queue.State.apply]
    split <;> exact Nat.le_refl _
  | push | pushJob | pushFifo | pushDelayed | retryInline | moveDelayedToWaiting | dlqRedrive
  | dlqRedriveMessage => exact Nat.le_refl _

theorem delivered_pop {jobs : Queue.State} {queue : String} {job : Job}
    (hpop : (pop queue jobs.store).1 = some job) :
    (jobs.apply (.pop queue)).delivered = (queue, job.id) :: jobs.delivered := by
  simp only [Queue.State.apply]
  split
  · rename_i heq
    rw [heq] at hpop
    cases hpop
    rfl
  · rename_i heq
    rw [heq] at hpop
    cases hpop

namespace Owned

theorem of_starts (h : Starts prefetch s) : Owned queueName s where
  inv := h.jobs
  counted := h.attempts
  held job := by
    simp [State.held, State.entries, h.place, h.registered, h.calls, Place.held]

/-- The queue is left alone, and no job comes into this consumer's hands. -/
theorem still (h : Owned queueName s) (hjobs : s'.jobs = s.jobs) (hattempts : s'.attempts = s.attempts)
    (hheld : ∀ job, (s'.held queueName).count job ≤ (s.held queueName).count job) : Owned queueName s' where
  inv := by
    rw [hjobs]
    exact h.inv
  counted := by
    rw [hjobs, hattempts]
    exact h.counted
  held job := by
    rw [hjobs]
    exact (hheld job).trans (h.held job)

theorem perform (h : Owned queueName s) (op : Op) (hallows : s.jobs.Allows op) (hread : s.jobs.Readable op)
    (hjobs : s'.jobs = s.jobs.apply op) (hattempts : s'.attempts = op.count s.jobs s.attempts)
    (hheld : ∀ job, (s'.held queueName).count job ≤ (s.jobs.apply op).delivered.count job) :
    Owned queueName s' where
  inv := by
    rw [hjobs]
    exact h.inv.apply hallows hread
  counted := by
    rw [hjobs, hattempts]
    exact h.inv.counted_apply h.counted hallows hread
  held job := by
    rw [hjobs]
    exact hheld job

/-- An operation that answers nothing leaves every job where it is held. -/
theorem pass (h : Owned queueName s) (op : Op) (hallows : s.jobs.Allows op) (hread : s.jobs.Readable op)
    (hjobs : s'.jobs = s.jobs.apply op) (hattempts : s'.attempts = op.count s.jobs s.attempts)
    (hanswers : ∀ job ∈ s.held queueName, answers op ≠ some job)
    (hheld : s'.held queueName = s.held queueName) : Owned queueName s' := by
  apply h.perform op hallows hread hjobs hattempts
  intro job
  rw [hheld]
  by_cases hmem : job ∈ s.held queueName
  · exact (h.held job).trans (count_delivered_apply s.jobs op (hanswers job hmem))
  · rw [List.count_eq_zero_of_not_mem hmem]
    exact Nat.zero_le _

/-- A held job was delivered. -/
theorem delivered (h : Owned queueName s) {job : String × String} (hmem : job ∈ s.held queueName) :
    job ∈ s.jobs.delivered :=
  List.count_pos_iff.mp ((List.count_pos_iff.mpr hmem).trans_le (h.held job))

/-- The answer takes the job out of this consumer's hands and off the books. -/
theorem answer (h : Owned queueName s) (op : Op) (job : String × String) (hallows : s.jobs.Allows op)
    (hread : s.jobs.Readable op) (hjobs : s'.jobs = s.jobs.apply op)
    (hattempts : s'.attempts = op.count s.jobs s.attempts)
    (hdelivered : (s.jobs.apply op).delivered = s.jobs.delivered.erase job)
    (hheld : (s.held queueName).Perm (job :: s'.held queueName)) : Owned queueName s' := by
  apply h.perform op hallows hread hjobs hattempts
  intro job'
  have hcount := h.held job'
  rw [hheld.count_eq, List.count_cons] at hcount
  rw [hdelivered, List.count_erase]
  omega

theorem producer (h : Owned queueName s) (hkept : Kept s)
    (hstep : Producer configs queueName prefetch s s') : Owned queueName s' := by
  cases hstep with
  | closed hplace hclosed => exact h.still rfl rfl fun job => by simp [State.held, hplace, Place.held, State.entries]
  | isOpen hplace hclosed => exact h.still rfl rfl fun job => by simp [State.held, hplace, Place.held, State.entries]
  | move now hplace =>
    refine h.pass (.moveDelayedToWaiting now _) trivial trivial rfl rfl (fun _ _ heq => by cases heq) ?_
    simp [State.held, hplace, Place.held, State.entries, State.perform]
  | empty hplace hpop =>
    refine h.pass (.pop _) trivial trivial rfl rfl (fun _ _ heq => by cases heq) ?_
    simp [State.held, hplace, Place.held, State.entries, State.perform]
  | pop job hplace hpop =>
    refine h.perform (.pop (namespaced queueName)) trivial trivial rfl rfl fun job' => ?_
    have hcount := h.held job'
    simp only [State.held, hplace, Place.held, List.nil_append] at hcount
    rw [delivered_pop hpop, List.count_cons]
    simp only [State.held, Place.held, List.cons_append, List.nil_append, List.count_cons]
    exact Nat.add_le_add_right hcount _
  | awake hplace => exact h.still rfl rfl fun job => by simp [State.held, hplace, Place.held, State.entries]
  | draw job hplace => exact h.still rfl rfl fun job => by simp [State.held, hplace, Place.held, State.entries]
  | register deliveryId job hplace =>
    obtain ⟨-, hfresh⟩ := hkept.drawn deliveryId (by rw [hplace]; rfl)
    refine h.still rfl rfl fun job' => ?_
    have hnew : (Assoc.get? (Assoc.insert s.deliveries deliveryId ⟨namespaced queueName, job.id⟩) deliveryId) =
        some (⟨namespaced queueName, job.id⟩ : DeliveryInfo) := by
      rw [Assoc.get?_insert, if_pos rfl]
    simp only [State.held, State.entries, hplace, Place.held, List.filterMap_append, List.filterMap_cons, hnew,
      List.filterMap_nil, Assoc.filterMap_get?_insert s.deliveries hfresh, List.map_append, List.map_cons,
      List.map_nil, DeliveryInfo.job, List.count_append, List.count_nil]
    omega
  | permit msg hplace hclosed hroom =>
    exact h.still rfl rfl fun job => by simp [State.held, hplace, Place.held, State.entries]
  | refuse msg hplace hclosed =>
    exact h.still rfl rfl fun job => by simp [State.held, hplace, Place.held, State.entries]
  | send msg hplace => exact h.still rfl rfl fun job => by simp [State.held, hplace, Place.held, State.entries]
  | trim hplace => exact h.still rfl rfl fun job => by simp [State.held, hplace, Place.held, State.entries]
  | take deliveryId info rest hplace hentry =>
    have hmem : deliveryId ∈ s.registered := hkept.rest (by rw [hplace]; exact List.mem_cons_self)
    refine h.still rfl rfl fun job' => ?_
    have hperm := ((Assoc.filterMap_get?_erase hkept.nodup hmem hentry).map fun info => info.job).count_eq job'
    simp only [State.held, State.entries, hplace, Place.held, List.count_append, List.map_cons, List.count_cons,
      List.count_nil] at hperm ⊢
    omega
  | skip deliveryId rest hplace hentry =>
    exact h.still rfl rfl fun job => by simp [State.held, hplace, Place.held, State.entries]
  | nack now deliveryId info rest hplace =>
    have hmem : info.job ∈ s.held queueName := by simp [State.held, hplace, Place.held]
    refine h.answer (.nack configs now info.queueName info.jobId "consumer stopped") info.job (h.delivered hmem)
      trivial rfl rfl rfl ?_
    simp only [State.held, hplace, Place.held, List.cons_append, List.nil_append]
    exact List.Perm.refl _
  | finish hplace => exact h.still rfl rfl fun job => by simp [State.held, hplace, Place.held, State.entries]

theorem receiver (h : Owned queueName s) (hkept : Kept s) {kept unsent unreceived : List Nat}
    (hwindow : Windowed prefetch s kept unsent unreceived) (hstep : Receiver configs s s') :
    Owned queueName s' := by
  cases hstep with
  | receive msg rest hclosed hchannel => exact h.still rfl rfl fun _ => Nat.le_refl _
  | drop => exact h.still rfl rfl fun _ => Nat.le_refl _
  | answer deliveryId call hreceived hentry =>
    have hmem : deliveryId ∈ s.registered := by
      rw [hwindow.registered, hwindow.sent]
      exact List.mem_append_left _ (List.mem_append_left _ hreceived)
    refine h.still rfl rfl fun job' => ?_
    have hperm := ((Assoc.filterMap_get?_erase hkept.nodup hmem hentry).map fun info => info.job).count_eq job'
    simp only [State.held, State.entries, List.count_append, List.map_cons, List.count_cons] at hperm ⊢
    omega
  | perform now call a b hcalls =>
    have hheld : (s.held queueName).Perm (call.info.job :: State.held queueName { s with calls := a ++ b }) := by
      simp only [State.held, hcalls, List.map_append, List.map_cons]
      rw [← List.append_assoc]
      exact List.perm_middle.trans (.of_eq (by rw [List.append_assoc]; rfl))
    have hdelivered := h.delivered (hheld.symm.subset List.mem_cons_self)
    cases call with
    | ack info =>
      exact h.answer (.ack info.queueName info.jobId) info.job hdelivered trivial rfl rfl rfl hheld
    | nack info =>
      exact h.answer (.nack configs now info.queueName info.jobId "function call failed") info.job hdelivered
        trivial rfl rfl rfl hheld
  | abandon call a b hcalls =>
    refine h.still rfl rfl fun job' => ?_
    simp only [State.held, State.entries, hcalls, List.map_append, List.map_cons, List.count_append,
      List.count_cons]
    omega

theorem others (h : Owned queueName s) (hstep : Others queueName s s') : Owned queueName s' := by
  cases hstep with
  | perform op hallows hread hothers => exact h.pass op hallows hread rfl rfl hothers rfl
  | deliver deliveries counter hcounter hothers =>
    refine h.still rfl rfl fun job => ?_
    have hentries : s.registered.filterMap (fun d => Assoc.get? deliveries d) =
        s.registered.filterMap fun d => Assoc.get? s.deliveries d :=
      List.filterMap_congr fun d hd => hothers d (.inl hd)
    simp only [State.held, State.entries, hentries]
    exact Nat.le_refl _

theorem reachable (h : (system configs queueName prefetch).Reachable s) : Owned queueName s := by
  apply h.invariant (I := Owned queueName)
  · exact fun s hstarts => of_starts hstarts
  · intro s s' hreach h hstep
    obtain ⟨kept, unsent, unreceived, hwindow⟩ := Windowed.reachable hreach
    have hkept := Kept.reachable hreach
    rcases hstep with hstep | hstep | hstep
    · exact h.producer hkept hstep
    · exact h.receiver hkept hwindow hstep
    · exact h.others hstep

end Owned

/-! ### Stopping -/

/-- The job is delayed again, with so many attempts. -/
structure Delayed (s : Store) (q id : String) (attempts : Nat) : Prop where
  delayed : id ∈ members (lanes s q).delayed
  active : id ∉ (lanes s q).active
  record : ∃ job, record s q id = some (.job job) ∧ job.attemptsMade = attempts

/-- The job is a dead letter, with so many attempts. -/
structure Buried (s : Store) (q id : String) (attempts : Nat) : Prop where
  dead : ∃ job error failedAt, .failed job error failedAt ∈ (lanes s q).dead ∧ job.id = id ∧
    job.attemptsMade = attempts
  active : id ∉ (lanes s q).active
  record : record s q id = none

/-- A nack counts an attempt, and buries the job when that was the last one it had. -/
theorem nack_returns {jobs : Queue.State} {n : Counts} (inv : Inv jobs) (hn : Counted jobs.store n) {q id : String}
    (h : (q, id) ∈ jobs.delivered) (error : String) :
    ∃ job, record jobs.store q id = some (.job job) ∧ ∀ now,
      if (applySubscriptionOverrides configs job).maxAttempts ≤ (n (q, id) + 1) % 2 ^ 32 then
        Buried (nack configs now q id error jobs.store) q id ((n (q, id) + 1) % 2 ^ 32)
      else Delayed (nack configs now q id error jobs.store) q id ((n (q, id) + 1) % 2 ^ 32) := by
  have hid := inv.plain_of_delivered h
  have hactive : id ∉ (lanes jobs.store q).active.erase id := by
    apply List.count_eq_zero.mp
    rw [List.count_erase_self, (inv.only_active h).1]
  obtain ⟨job, -, hrecord, -⟩ := inv.nack_cases h configs 0 error
  refine ⟨job, hrecord, ?_⟩
  intro now
  obtain ⟨job₁, job', hrecord', hid', hattempts, hmax, hcases⟩ := inv.nack_cases h configs now error
  obtain rfl : job₁ = job := by
    rw [hrecord] at hrecord'
    cases hrecord'
    rfl
  rw [hn q id job₁ hid hrecord] at hattempts
  rw [hmax, hattempts] at hcases
  rcases hcases with ⟨hexhausted, hnack⟩ | ⟨hleft, score, hnack⟩
  · rw [if_pos hexhausted, hnack]
    constructor
    · refine ⟨job', error, now, ?_, hid', hattempts⟩
      rw [lanes_moveToDlq, Function.update_self]
      exact List.mem_cons_self
    · rw [lanes_moveToDlq, Function.update_self, hid']
      exact hactive
    · rw [← hid'] at hid ⊢
      exact (record_deleteJob jobs.store q hid q hid).trans (if_pos ⟨rfl, rfl⟩)
  · rw [if_neg (Nat.not_le.mpr hleft), hnack]
    constructor
    · rw [lanes_zadd, Function.update_self, ← List.count_pos_iff, count_members_insertScore, if_pos rfl]
      exact Nat.one_pos
    · rw [lanes_zadd, Function.update_self, lanes_setJob, lanes_lrem_active, Function.update_self]
      exact hactive
    · exact ⟨job', (record_setJob _ q hid _ q hid).trans (if_pos ⟨rfl, rfl⟩), hattempts⟩

/-- The message of the send in progress. -/
def Place.sending : Place → Option QueueMessage
  | .blocked msg | .permitted msg => some msg
  | _ => none

/-- However the task, the consumer and the others take turns: what is in the channel or being
sent is outstanding; after the clean-up every delivery that was not received is out of the map
and was nacked; the attempts of every job are the nacks it had, this consumer's, the clean-up's
and the others'; and a nack of the clean-up buries the job when that attempt exhausts it, and
delays it otherwise, received or not. -/
theorem stop_returns (h : (system configs queueName prefetch).Reachable s) :
    (∀ msg, msg ∈ s.channel ∨ s.place.sending = some msg → msg.deliveryId ∈ s.outstanding) ∧
    (s.place = .done → ∀ d ∈ s.registered, d ∉ s.received →
      Assoc.get? s.deliveries d = none ∧ d ∈ s.returned) ∧
    (∀ q id job, Plain id → record s.jobs.store q id = some (.job job) →
      job.attemptsMade = s.attempts (q, id)) ∧
    (∀ d info rest, s.place = .nacking d info rest →
      ∃ job, record s.jobs.store info.queueName info.jobId = some (.job job) ∧ ∀ now,
        let store := nack configs now info.queueName info.jobId "consumer stopped" s.jobs.store
        let attempts := (s.attempts info.job + 1) % 2 ^ 32
        if (applySubscriptionOverrides configs job).maxAttempts ≤ attempts then
          Buried store info.queueName info.jobId attempts
        else Delayed store info.queueName info.jobId attempts) := by
  obtain ⟨kept, unsent, unreceived, hwindow⟩ := Windowed.reachable h
  have hkept := Kept.reachable h
  have howned := Owned.reachable h
  refine ⟨?_, ?_, howned.counted, ?_⟩
  · intro msg hmsg
    rw [hwindow.outstanding]
    rcases hmsg with hmsg | hmsg
    · have hsuffix := hwindow.channel.subset (List.mem_map_of_mem hmsg)
      exact List.mem_append_left _ (hwindow.subset hsuffix)
    · apply List.mem_append_right
      have hunsent := hwindow.unsent
      cases hplace : s.place with
      | blocked msg' | permitted msg' =>
        rw [hplace] at hmsg hunsent
        cases hmsg
        rw [show unsent = [msg.deliveryId] from hunsent]
        exact List.mem_singleton_self _
      | checking | moving | popping | asleep | popped | drawn | sent | cleaning | nacking | done =>
        rw [hplace] at hmsg
        cases hmsg
  · intro hdone d hregistered hreceived
    have hentries := hkept.entries d ⟨hregistered, hreceived⟩
    rw [hdone] at hentries
    rcases hentries with ⟨-, hw⟩ | ⟨hnone, hreturned | hn⟩
    · exact absurd hw not_false
    · exact ⟨hnone, hreturned⟩
    · exact absurd hn not_false
  · intro d info rest hplace
    have hmem : info.job ∈ s.held queueName := by simp [State.held, hplace, Place.held]
    exact nack_returns howned.inv howned.counted (howned.delivered hmem) "consumer stopped"

/-! ### A consumer that never receives -/

def idle : State where
  jobs := .empty
  attempts _ := 0
  deliveries := []
  deliveryCounter := 0
  place := .checking
  outstanding := []
  channel := []
  closed := false
  calls := []
  registered := []
  sent := []
  received := []
  returned := []

theorem starts_idle : Starts 1 idle where
  buffer := Nat.one_pos
  jobs := Inv.empty
  attempts _ _ _ _ h := by cases h
  place := rfl
  outstanding := rfl
  channel := rfl
  closed := rfl
  calls := rfl
  registered := rfl
  sent := rfl
  received := rfl
  returned := rfl

/-- One attempt is all it has. -/
def lastTry : Job := .newWithGroup "j" 0 (namespaced "mail") .null 1 1000 none none none

/-- It is published and sent, or about to be, and the receiver is dropped. -/
def stopped : State :=
  { idle.perform (.pushJob lastTry) with
    jobs := ((idle.jobs.apply (.pushJob lastTry)).apply (.moveDelayedToWaiting 0 (namespaced "mail"))).apply
      (.pop (namespaced "mail"))
    deliveries := [(0, ⟨namespaced "mail", "j"⟩)]
    deliveryCounter := 1
    place := .cleaning [0]
    outstanding := [0]
    closed := true
    registered := [0] }

theorem reachable_stopped : (system [] "mail" 1).Reachable stopped := by
  have hplain : Plain "j" := by decide
  have hstart : (system [] "mail" 1).Reachable idle := .init starts_idle
  have hpublish := hstart.step (.inr (.inr (.perform (.pushJob lastTry) ⟨hplain, List.not_mem_nil⟩ trivial
    (fun _ h => nomatch h))))
  have hopen := hpublish.step (.inl (.isOpen rfl rfl))
  have hmove := hopen.step (.inl (.move 0 rfl))
  have hpop := hmove.step (.inl (.pop lastTry rfl (by rfl)))
  have hdraw := hpop.step (.inl (.draw lastTry rfl))
  have hregister := hdraw.step (.inl (.register 0 lastTry rfl))
  have hdrop := hregister.step (.inr (.inl .drop))
  exact hdrop.step (.inl (.refuse (.ofJob 0 lastTry) rfl rfl))

theorem stop_returns_stopped : ∃ s, (system [] "mail" 1).Reachable s ∧ s.place = .done ∧ s.registered = [0] ∧
    Assoc.get? s.deliveries 0 = none ∧ 0 ∈ s.returned := by
  have hstopped := reachable_stopped
  have htake := hstopped.step (.inl (.take 0 ⟨namespaced "mail", "j"⟩ [] rfl rfl))
  have hnack := htake.step (.inl (.nack 5 0 ⟨namespaced "mail", "j"⟩ [] rfl))
  have hdone := hnack.step (.inl (.finish rfl))
  exact ⟨_, hdone, rfl, rfl, (stop_returns hdone).2.1 rfl 0 (List.mem_singleton_self 0) List.not_mem_nil⟩

/-- A job that no consumer received is a dead letter, with the attempt the clean-up counted. -/
theorem unreceived_buried : ∃ s, (system [] "mail" 1).Reachable s ∧ s.place = .done ∧ s.registered = [0] ∧
    s.received = [] ∧ s.returned = [0] ∧ Buried s.jobs.store (namespaced "mail") "j" 1 := by
  have hstopped := reachable_stopped
  have htake := hstopped.step (.inl (.take 0 ⟨namespaced "mail", "j"⟩ [] rfl rfl))
  have hnack := htake.step (.inl (.nack 5 0 ⟨namespaced "mail", "j"⟩ [] rfl))
  refine ⟨_, hnack.step (.inl (.finish rfl)), rfl, rfl, rfl, rfl, ?_⟩
  constructor
  · exact ⟨{ lastTry with attemptsMade := 1 }, "consumer stopped", 5, by decide, rfl, rfl⟩
  · decide
  · exact Option.isNone_iff_eq_none.mp (by rfl)

end Iii.Queue.Consumer
