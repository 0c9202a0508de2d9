import Iii.Owner.Entries

/-! How many revisions are kept, and which are forgotten.

The queue beside the map holds every pair that was kept, also the pairs of functions that were taken back or kept
again, which are told from the others by their revisions. A pair that is kept while it stands in the queue cannot be
told from itself: it stays there twice, and the older of the two evicts the function (`kept_again`). Where that does
not happen the map and the queue are bounded, and what goes is what was kept longest ago (`kept_right`). -/
namespace Iii.Entries
open Lib
open Iii.Owner (FnKey)

/-- The revisions of the functions that have no entry. -/
structure Kept where
  revisions : List (FnKey × Nat)
  order : List (FnKey × Nat)

def State.kept (s : State) : Kept := ⟨s.revisions, s.revisionOrder⟩

inductive Call where
  | keepRevision (key : FnKey) (revision : Nat)
  /-- `entry_for` makes an entry. -/
  | entryFor (key : FnKey)

def Kept.call (s : Kept) : Call → Kept
  | .keepRevision key revision =>
    let (revisions, order) :=
      State.evict (Assoc.insert s.revisions key revision) (s.order ++ [(key, revision)])
    ⟨revisions,
      if order.length > 2 * maxKeptRevisions then order.filter fun m => Assoc.get? revisions m.1 = some m.2 else order⟩
  | .entryFor key => ⟨Assoc.erase s.revisions key, s.order⟩

/-- The calls so far, the last one first. -/
def Kept.after : List Call → Kept
  | [] => ⟨[], []⟩
  | c :: past => (after past).call c

theorem kept_trim (s : State) (key : FnKey) (revision : Nat) :
    ({ s with revisions := Assoc.insert s.revisions key revision }.trim key revision).kept =
      s.kept.call (.keepRevision key revision) := rfl

/-- The number of the last call that kept a revision of the function, none being zero. -/
def lastKept (key : FnKey) : List Call → Nat
  | [] => 0
  | .keepRevision key' _ :: past => if key' = key then past.length + 1 else lastKept key past
  | .entryFor _ :: past => lastKept key past

/-- The last call dropped the revision of the function to make room. -/
def Evicted (key : FnKey) : List Call → Prop
  | .keepRevision key' revision :: past =>
    (Assoc.get? (Assoc.insert (Kept.after past).revisions key' revision) key).isSome ∧
      Assoc.get? (Kept.after (.keepRevision key' revision :: past)).revisions key = none
  | _ => False

/-- What is owed after the calls. -/
structure KeptRight (past : List Call) : Prop where
  few : (Kept.after past).revisions.length ≤ maxKeptRevisions
  short : (Kept.after past).order.length ≤ 2 * maxKeptRevisions
  oldest : ∀ key, Evicted key past → ∀ m ∈ (Kept.after past).revisions, lastKept key past < lastKept m.1 past

/-- No pair is kept while it stands in the queue. -/
def KeptOnce : List Call → Prop
  | [] => True
  | .keepRevision key revision :: past => (key, revision) ∉ (Kept.after past).order ∧ KeptOnce past
  | .entryFor _ :: past => KeptOnce past

theorem lastKept_le (key : FnKey) (past : List Call) : lastKept key past ≤ past.length := by
  induction past with
  | nil => exact Nat.le_refl 0
  | cons c past ih =>
    cases c with
    | keepRevision key' revision =>
      rw [lastKept, List.length_cons]
      split
      · exact Nat.le_refl _
      · exact Nat.le_succ_of_le ih
    | entryFor key' => exact Nat.le_succ_of_le ih

/-! ### The queue -/

/-- The queue holds the pair of every function that has a revision, and these stand in the order they were kept in. -/
structure Ordered (past : List Call) (revisions order : List (FnKey × Nat)) : Prop where
  distinct : Assoc.Distinct revisions
  nodup : order.Nodup
  queued : ∀ m ∈ revisions, m ∈ order
  ascending : order.Pairwise fun m m' =>
    m ∈ revisions → m' ∈ revisions → lastKept m.1 past < lastKept m'.1 past

section
variable {past : List Call} {revisions revisions' order order' : List (FnKey × Nat)} {key : FnKey} {revision : Nat}

theorem mem_erase {m : FnKey × Nat} : m ∈ Assoc.erase revisions key ↔ m ∈ revisions ∧ m.1 ≠ key := by
  unfold Assoc.erase
  rw [List.mem_filter, decide_eq_true_iff]

theorem Ordered.mono (h : Ordered past revisions order) (hdistinct : Assoc.Distinct revisions')
    (hsub : ∀ m ∈ revisions', m ∈ revisions) (horder : order'.Sublist order)
    (hqueued : ∀ m ∈ revisions', m ∈ order') : Ordered past revisions' order' where
  distinct := hdistinct
  nodup := h.nodup.sublist horder
  queued := hqueued
  ascending := (h.ascending.sublist horder).imp fun hm hleft hright => hm (hsub _ hleft) (hsub _ hright)

theorem Ordered.entryFor (h : Ordered past revisions order) :
    Ordered (.entryFor key :: past) (Assoc.erase revisions key) order where
  distinct := Assoc.distinct_erase h.distinct key
  nodup := h.nodup
  queued := fun m hm => h.queued m (mem_erase.mp hm).1
  ascending := h.ascending.imp fun hm hleft hright => hm (mem_erase.mp hleft).1 (mem_erase.mp hright).1

theorem mem_insert {m : FnKey × Nat} (hdistinct : Assoc.Distinct revisions)
    (hm : m ∈ Assoc.insert revisions key revision) : m = (key, revision) ∨ m.1 ≠ key ∧ m ∈ revisions := by
  have hget := Assoc.get?_of_mem (Assoc.distinct_insert hdistinct key revision) hm
  rw [Assoc.get?_insert] at hget
  split at hget
  · rename_i hkey
    left
    exact Prod.ext hkey.symm (Option.some_inj.mp hget).symm
  · rename_i hkey
    exact .inr ⟨Ne.symm hkey, Assoc.mem_of_get? hget⟩

theorem Ordered.keep (h : Ordered past revisions order) (hfresh : (key, revision) ∉ order) :
    Ordered (.keepRevision key revision :: past) (Assoc.insert revisions key revision)
      (order ++ [(key, revision)]) where
  distinct := Assoc.distinct_insert h.distinct key revision
  nodup := by
    rw [List.nodup_append_comm]
    exact List.nodup_cons.mpr ⟨hfresh, h.nodup⟩
  queued := by
    intro m hm
    rcases mem_insert h.distinct hm with rfl | ⟨_, hm⟩
    · exact List.mem_append_right _ (List.mem_singleton_self _)
    · exact List.mem_append_left _ (h.queued m hm)
  ascending := by
    -- a pair that stood in the queue is not the one that is kept now
    have hold : ∀ m ∈ order, m ∈ Assoc.insert revisions key revision → m.1 ≠ key ∧ m ∈ revisions := by
      intro m hmem hm
      rcases mem_insert h.distinct hm with rfl | hm
      · exact absurd hmem hfresh
      · exact hm
    rw [List.pairwise_append]
    refine ⟨?_, List.pairwise_singleton _ _, ?_⟩
    · refine h.ascending.imp_of_mem fun {m m'} hmem hmem' hlt hm hm' => ?_
      have hleft := hold m hmem hm
      have hright := hold m' hmem' hm'
      rw [lastKept, lastKept, if_neg hleft.1.symm, if_neg hright.1.symm]
      exact hlt hleft.2 hright.2
    · intro m hmem m' hm' hm _
      rw [List.mem_singleton.mp hm', lastKept, lastKept, if_neg (hold m hmem hm).1.symm, if_pos rfl]
      exact Nat.lt_succ_of_le (lastKept_le m.1 past)

/-- One turn of the loop of `keep_revision`. -/
theorem Ordered.pop {oldest : FnKey} {kept : Nat} (h : Ordered past revisions ((oldest, kept) :: order)) :
    Ordered past
      (if Assoc.get? revisions oldest = some kept then Assoc.erase revisions oldest else revisions) order := by
  split
  · refine h.mono (Assoc.distinct_erase h.distinct oldest) (fun m hm => (mem_erase.mp hm).1)
      (List.sublist_cons_self _ _) fun m hm => ?_
    obtain ⟨hm, hne⟩ := mem_erase.mp hm
    rcases List.mem_cons.mp (h.queued m hm) with rfl | hmem
    · exact absurd rfl hne
    · exact hmem
  · rename_i hstale
    refine h.mono h.distinct (fun m hm => hm) (List.sublist_cons_self _ _) fun m hm => ?_
    rcases List.mem_cons.mp (h.queued m hm) with rfl | hmem
    · exact absurd (Assoc.get?_of_mem h.distinct hm) hstale
    · exact hmem

theorem evict_ordered (h : Ordered past revisions order) :
    Ordered past (State.evict revisions order).1 (State.evict revisions order).2 := by
  fun_induction State.evict revisions order with
  | case1 => exact h
  | case2 revisions oldest kept order _ ih => exact ih h.pop
  | case3 => exact h

theorem evict_sub : ∀ m ∈ (State.evict revisions order).1, m ∈ revisions := by
  fun_induction State.evict revisions order with
  | case1 => exact fun _ hm => hm
  | case2 revisions oldest kept order _ ih =>
    intro m hm
    have hmem := ih m hm
    split at hmem
    · exact (mem_erase.mp hmem).1
    · exact hmem
  | case3 => exact fun _ hm => hm

/-- Every function that has a revision stands in the queue, so the loop ends with few of them. -/
theorem evict_length (h : Ordered past revisions order) :
    (State.evict revisions order).1.length ≤ maxKeptRevisions := by
  fun_induction State.evict revisions order with
  | case1 revisions =>
    have hnil : revisions = [] := List.eq_nil_iff_forall_not_mem.mpr fun m hm => nomatch h.queued m hm
    rw [hnil]
    exact Nat.zero_le _
  | case2 revisions oldest kept order _ ih => exact ih h.pop
  | case3 revisions oldest kept order hfew => exact Nat.le_of_not_lt hfew

/-- What is dropped was kept before everything that stays. -/
theorem evict_oldest (h : Ordered past revisions order) (hkept : Assoc.get? revisions key = some revision)
    (hgone : Assoc.get? (State.evict revisions order).1 key = none) :
    ∀ m ∈ (State.evict revisions order).1, lastKept key past < lastKept m.1 past := by
  fun_induction State.evict revisions order with
  | case1 => exact absurd hgone (hkept ▸ Option.some_ne_none revision)
  | case2 revisions oldest kept order _ ih =>
    by_cases hkey : Assoc.get? revisions oldest = some kept ∧ oldest = key
    · obtain ⟨hoccupied, rfl⟩ := hkey
      rw [if_pos hoccupied] at ih ⊢
      intro m hm
      have hmem := evict_sub m hm
      have hpop := h.pop
      rw [if_pos hoccupied] at hpop
      exact List.rel_of_pairwise_cons h.ascending (hpop.queued m hmem) (Assoc.mem_of_get? hoccupied)
        (mem_erase.mp hmem).1
    · refine ih h.pop ?_ hgone
      split
      · rename_i hoccupied
        rw [Assoc.get?_erase, if_neg fun hk => hkey ⟨hoccupied, hk⟩]
        exact hkept
      · exact hkept
  | case3 => exact absurd hgone (hkept ▸ Option.some_ne_none revision)

/-- What `retain` leaves is as long as the map. -/
theorem length_current (h : Ordered past revisions order) :
    (order.filter fun m => Assoc.get? revisions m.1 = some m.2).length ≤ revisions.length := by
  refine (List.subperm_of_subset (h.nodup.filter _) fun m hm => ?_).length_le
  rw [List.mem_filter, decide_eq_true_iff] at hm
  exact Assoc.mem_of_get? hm.2

end

/-! ### Runs -/

variable {past : List Call}

theorem ordered (h : KeptOnce past) : Ordered past (Kept.after past).revisions (Kept.after past).order := by
  induction past with
  | nil => exact ⟨List.nodup_nil, List.nodup_nil, nofun, .nil⟩
  | cons c past ih =>
    cases c with
    | keepRevision key revision =>
      have hevict := evict_ordered ((ih h.2).keep h.1)
      rw [Kept.after, Kept.call]
      dsimp only
      split
      · refine hevict.mono hevict.distinct (fun m hm => hm) List.filter_sublist fun m hm => ?_
        rw [List.mem_filter, decide_eq_true_iff]
        exact ⟨hevict.queued m hm, Assoc.get?_of_mem hevict.distinct hm⟩
      · exact hevict
    | entryFor key => exact (ih h).entryFor

theorem few_kept (h : KeptOnce past) : (Kept.after past).revisions.length ≤ maxKeptRevisions := by
  induction past with
  | nil => exact Nat.zero_le _
  | cons c past ih =>
    cases c with
    | keepRevision key revision => exact evict_length ((ordered h.2).keep h.1)
    | entryFor key => exact (List.length_filter_le _ _).trans (ih h)

theorem order_short (h : KeptOnce past) : (Kept.after past).order.length ≤ 2 * maxKeptRevisions := by
  induction past with
  | nil => exact Nat.zero_le _
  | cons c past ih =>
    cases c with
    | keepRevision key revision =>
      have hkeep := (ordered h.2).keep h.1
      have hlen := evict_length hkeep
      have hcurrent := length_current (evict_ordered hkeep)
      rw [Kept.after, Kept.call]
      dsimp only
      split <;> omega
    | entryFor key => exact ih h

/-- In every run that keeps no pair while it stands in the queue, few revisions are kept, the queue is short, and what
is evicted was kept before everything that stays. -/
theorem kept_right (h : KeptOnce past) : KeptRight past where
  few := few_kept h
  short := order_short h
  oldest := by
    intro key hevicted
    cases past with
    | nil => exact hevicted.elim
    | cons c past =>
      cases c with
      | keepRevision key' revision =>
        obtain ⟨kept, hkept⟩ := Option.isSome_iff_exists.mp hevicted.1
        exact evict_oldest ((ordered h.2).keep h.1) hkept hevicted.2
      | entryFor key' => exact hevicted.elim

/-- Two functions, one of them taken back. -/
theorem kept_right_sample : KeptRight
    [.keepRevision ("app", "sum") 4, .entryFor ("app", "add"), .keepRevision ("app", "add") 4] :=
  kept_right ⟨by decide, by decide, trivial⟩

/-! ### One function again and again -/

/-- The entry of one function is made and dropped over and over, its revision staying the same. -/
def churn (key : FnKey) (revision : Nat) : Nat → List Call
  | 0 => []
  | n + 1 => .keepRevision key revision :: .entryFor key :: churn key revision n

/-- The pair is put behind the others, which are all the same and all taken for the last. -/
theorem call_again {s : Kept} {m : FnKey × Nat} (hrevisions : ∀ m' ∈ s.revisions, m' = m)
    (horder : ∀ m' ∈ s.order, m' = m) :
    (s.call (.entryFor m.1)).call (.keepRevision m.1 m.2) = ⟨[m], s.order ++ [m]⟩ := by
  have herase : Assoc.erase s.revisions m.1 = [] := by
    apply List.eq_nil_iff_forall_not_mem.mpr
    intro m' hm'
    obtain ⟨hmem, hne⟩ := mem_erase.mp hm'
    exact hne (congrArg Prod.fst (hrevisions m' hmem))
  have hevict : State.evict [m] (s.order ++ [m]) = ([m], s.order ++ [m]) := by
    have hone : ¬ [m].length > maxKeptRevisions := by
      rw [List.length_singleton]
      decide
    cases s.order ++ [m] with
    | nil => rfl
    | cons m' order => rw [State.evict, if_neg hone]
  have hall : (s.order ++ [m]).filter (fun m' => Assoc.get? [m] m'.1 = some m'.2) = s.order ++ [m] := by
    apply List.filter_eq_self.mpr
    intro m' hm'
    have heq : m' = m := by
      rcases List.mem_append.mp hm' with hm' | hm'
      · exact horder m' hm'
      · exact List.mem_singleton.mp hm'
    rw [heq, Assoc.get?_cons, if_pos rfl]
    exact decide_eq_true rfl
  simp only [Kept.call, herase, Assoc.insert, hevict, hall, ite_self]

theorem after_churn (key : FnKey) (revision n : Nat) :
    Kept.after (churn key revision (n + 1)) = ⟨[(key, revision)], List.replicate (n + 1) (key, revision)⟩ := by
  induction n with
  | zero => exact call_again (s := ⟨[], []⟩) (m := (key, revision)) nofun nofun
  | succ n ih =>
    rw [churn, Kept.after, Kept.after, ih, List.replicate_succ' (n := n + 1)]
    exact call_again (m := (key, revision)) (fun m hm => List.mem_singleton.mp hm)
      fun m hm => List.eq_of_mem_replicate hm

/-- A pair that is kept again and again fills the queue. -/
theorem kept_again : ¬ ∀ past, KeptRight past := by
  intro h
  have hshort := (h (churn ("app", "sum") 1 (2 * maxKeptRevisions + 1))).short
  rw [after_churn, List.length_replicate] at hshort
  omega

end Iii.Entries
