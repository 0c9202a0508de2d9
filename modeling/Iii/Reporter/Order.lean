import Iii.Reporter.Account

/-! The order of the reports: a function's items leave in push order in every run in which the gate
lets a function through only while none of its older items is back in line. -/
namespace Iii.Reporter
open Lib

variable {B : Type} {s s' s'' : State B} {f : Flush B}

/-- What the order is about. -/
def Item.key (item : Item B) : String × Nat := (item.functionId, item.seq)

theorem Sorted.of_keys {l l' : List (Item B)} (h : Sorted l') (hsub : (l.map Item.key).Sublist (l'.map Item.key)) :
    Sorted l := by
  have hkeys : (l'.map Item.key).Pairwise fun a b => a.2 ≤ b.2 := List.pairwise_map.mpr h
  have hkept := hkeys.sublist hsub
  rw [List.pairwise_map] at hkept
  exact hkept

theorem exists_of_keys {l l' : List (Item B)} (hsub : (l.map Item.key).Sublist (l'.map Item.key)) {x : Item B}
    (hx : x ∈ l) : ∃ y ∈ l', y.functionId = x.functionId ∧ y.seq = x.seq := by
  obtain ⟨y, hy, hkey⟩ := List.mem_map.mp (hsub.subset (List.mem_map_of_mem hx))
  exact ⟨y, hy, congrArg Prod.fst hkey, congrArg Prod.snd hkey⟩

/-- `x` may leave before `y`. -/
def Before (x y : Item B) : Prop := x.functionId = y.functionId → x.seq ≤ y.seq

theorem Sorted.before {l : List (Item B)} (h : Sorted l) : l.Pairwise Before := by
  apply List.Pairwise.imp _ h
  intro x y hle _
  exact hle

theorem Before.of_key {x y z : Item B} (h : Before x y) (hfunction : y.functionId = z.functionId) (hseq : y.seq = z.seq) :
    Before x z := by
  intro hsame
  rw [← hseq]
  exact h (hsame.trans hfunction.symm)

namespace State

/-! ### Invariants -/

/-- Every list of parked items is in order, and of its function. -/
def ParkedOk (parked : List (String × List (Item B))) : Prop :=
  ∀ m ∈ parked, Sorted m.2 ∧ ∀ x ∈ m.2, x.functionId = m.1

/-- What is known about the running flush. -/
structure Running (s : State B) (f : Flush B) : Prop where
  sendable : Sorted (f.sendable ++ f.taken)
  held : Sorted (f.held ++ f.taken)
  send : ∀ x ∈ f.sendable, Assoc.get? f.gates x.functionId = some .send
  hold : ∀ x ∈ f.held, Assoc.get? f.gates x.functionId = some .hold
  taking : s.taking = true
  since : f.since ≤ s.fateSeq
  passed : ∀ {id}, Assoc.get? f.gates id = some .send → Assoc.get? s.parked id = none
  first : ∀ {x}, x ∈ f.sendable ++ f.taken → Assoc.get? f.gates x.functionId = some .send → ∀ y ∈ s.items, Before x y
  confirmed : ∀ {id}, Assoc.get? f.gates id = some .hold → s.ready id = true → f.since < (s.fatesOf id).unparked

structure Ordered (s : State B) : Prop where
  items : Sorted s.items
  parked : ParkedOk s.parked
  flush : ∀ f, s.flush = some f → Running s f
  ready : ∀ id, s.ready id = true → Assoc.get? s.parked id = none
  sent : s.sent.Pairwise Before
  after : ∀ x ∈ s.sent, ∀ y ∈ s.buffered, Before x y

theorem Ordered.start : Ordered (State.start : State B) where
  items := List.Pairwise.nil
  parked := by simp [ParkedOk, State.start]
  flush := by simp [State.start]
  ready := by simp [State.start]
  sent := List.Pairwise.nil
  after := by simp [State.sent, State.start]

variable {parked : List (String × List (Item B))} {x : Item B}

theorem ParkedOk.get?_ne_none (h : ParkedOk parked) (hx : x ∈ parked.flatMap (·.2)) :
    Assoc.get? parked x.functionId ≠ none := by
  obtain ⟨m, hm, hx⟩ := List.mem_flatMap.mp hx
  rw [(h m hm).2 x hx, Ne, Assoc.get?_eq_none_iff, not_not]
  exact List.mem_map_of_mem hm

theorem mem_buffered :
    x ∈ s.buffered ↔ x ∈ s.items ∨ x ∈ s.parked.flatMap (·.2) ∨ ∃ f, s.flush = some f ∧ x ∈ f.all := by
  unfold buffered
  rw [List.mem_append, List.mem_append, or_assoc]
  cases s.flush with
  | none => simp
  | some f => simp

/-! ### Steps that only take away -/

/-- Items may be gone or joined, and the gate may let fewer functions through. -/
structure Shrinks (s s' : State B) : Prop where
  items : (s'.items.map Item.key).Sublist (s.items.map Item.key)
  parked : ∀ m ∈ s'.parked, m ∈ s.parked
  flush : s'.flush = s.flush
  sent : s'.sent = s.sent
  ready : ∀ id, s'.ready id = true → s.ready id = true
  taking : s'.taking = s.taking
  fateSeq : s.fateSeq ≤ s'.fateSeq
  unparked : ∀ id, (s.fatesOf id).unparked ≤ (s'.fatesOf id).unparked

theorem Shrinks.refl (s : State B) : Shrinks s s where
  items := List.Sublist.refl _
  parked := fun _ h => h
  flush := rfl
  sent := rfl
  ready := fun _ h => h
  taking := rfl
  fateSeq := Nat.le_refl _
  unparked := fun _ => Nat.le_refl _

theorem Shrinks.trans (h : Shrinks s s') (h' : Shrinks s' s'') : Shrinks s s'' where
  items := h'.items.trans h.items
  parked := fun m hm => h.parked m (h'.parked m hm)
  flush := h'.flush.trans h.flush
  sent := h'.sent.trans h.sent
  ready := fun id hid => h.ready id (h'.ready id hid)
  taking := h'.taking.trans h.taking
  fateSeq := Nat.le_trans h.fateSeq h'.fateSeq
  unparked := fun id => Nat.le_trans (h.unparked id) (h'.unparked id)

theorem Shrinks.none (h : Shrinks s s') {id : String} (hnone : Assoc.get? s.parked id = none) :
    Assoc.get? s'.parked id = none := by
  rw [Assoc.get?_eq_none_iff] at hnone ⊢
  intro hmem
  obtain ⟨m, hm, hid⟩ := List.mem_map.mp hmem
  exact hnone (List.mem_map.mpr ⟨m, h.parked m hm, hid⟩)

theorem Shrinks.buffered (h : Shrinks s s') (hx : x ∈ s'.buffered) :
    ∃ y ∈ s.buffered, y.functionId = x.functionId ∧ y.seq = x.seq := by
  rcases mem_buffered.mp hx with hx | hx | ⟨f, hf, hx⟩
  · obtain ⟨y, hy, hkey⟩ := exists_of_keys h.items hx
    exact ⟨y, mem_buffered.mpr (.inl hy), hkey⟩
  · obtain ⟨m, hm, hx⟩ := List.mem_flatMap.mp hx
    exact ⟨x, mem_buffered.mpr (.inr (.inl (List.mem_flatMap.mpr ⟨m, h.parked m hm, hx⟩))), rfl, rfl⟩
  · exact ⟨x, mem_buffered.mpr (.inr (.inr ⟨f, h.flush ▸ hf, hx⟩)), rfl, rfl⟩

theorem Running.shrink (hf : Running s f) (h : Shrinks s s') : Running s' f where
  sendable := hf.sendable
  held := hf.held
  send := hf.send
  hold := hf.hold
  taking := h.taking.trans hf.taking
  since := Nat.le_trans hf.since h.fateSeq
  passed := fun hgate => h.none (hf.passed hgate)
  first := by
    intro x hx hgate y hy
    obtain ⟨z, hz, hfunction, hseq⟩ := exists_of_keys h.items hy
    exact (hf.first hx hgate z hz).of_key hfunction hseq
  confirmed := fun hgate hready => Nat.lt_of_lt_of_le (hf.confirmed hgate (h.ready _ hready)) (h.unparked _)

theorem Ordered.shrink (hs : Ordered s) (h : Shrinks s s') : Ordered s' where
  items := hs.items.of_keys h.items
  parked := fun m hm => hs.parked m (h.parked m hm)
  flush := fun f hf => (hs.flush f (h.flush ▸ hf)).shrink h
  ready := fun id hid => h.none (hs.ready id (h.ready id hid))
  sent := h.sent ▸ hs.sent
  after := by
    intro x hx y hy
    obtain ⟨z, hz, hfunction, hseq⟩ := h.buffered hy
    exact (hs.after x (h.sent ▸ hx) z hz).of_key hfunction hseq

theorem shrinks_tallied (s : State B) (functionId : String) (reason : Reason) (seqs : List (Option Nat)) :
    Shrinks s (s.tallied functionId reason seqs) :=
  ⟨List.Sublist.refl _, fun _ h => h, rfl, rfl, fun _ h => h, rfl, Nat.le_refl _, fun _ => Nat.le_refl _⟩

theorem shrinks_release (s : State B) (functionId : String) (items : List (Item B)) :
    Shrinks s (s.release functionId items) := by
  unfold release
  split
  · exact Shrinks.refl s
  · exact ⟨List.Sublist.refl _, fun _ h => h, rfl, rfl, fun _ h => h, rfl, Nat.le_refl _, fun _ => Nat.le_refl _⟩

theorem shrinks_releaseItems (s : State B) (items : List (Item B)) : Shrinks s (s.releaseItems items) := by
  induction items generalizing s with
  | nil => exact Shrinks.refl s
  | cons item rest ih => exact (shrinks_release s _ _).trans (ih _)

theorem shrinks_releaseParked (s : State B) (parked : List (String × List (Item B))) :
    Shrinks s (s.releaseParked parked) := by
  induction parked generalizing s with
  | nil => exact Shrinks.refl s
  | cons entry rest ih => exact (shrinks_release s _ _).trans (ih _)

theorem shrinks_dropItems (s : State B) (reason : Reason) (items : List (Item B)) :
    Shrinks s (s.dropItems reason items) := by
  induction items generalizing s with
  | nil => exact Shrinks.refl s
  | cons item rest ih => exact (shrinks_tallied s _ _ _).trans (ih _)

theorem fatesOf_record (s : State B) (functionId : String) (f : Nat → Fates → Fates) (id : String) :
    (s.record functionId f).fatesOf id =
      if s.taking = true ∧ functionId = id then f (s.fateSeq + 1) (s.fatesOf id) else s.fatesOf id := by
  unfold record
  split
  · rename_i htaking
    unfold fatesOf
    rw [Assoc.get?_insert]
    by_cases h : functionId = id
    · rw [if_pos h, if_pos ⟨htaking, h⟩, h]
      rfl
    · rw [if_neg h, if_neg (fun h' => h h'.2)]
  · rename_i htaking
    rw [if_neg (fun h => htaking h.1)]

theorem record_frame (s : State B) (id : String) (f : Nat → Fates → Fates) :
    (s.record id f).items = s.items ∧ (s.record id f).parked = s.parked ∧ (s.record id f).flush = s.flush ∧
      (s.record id f).sent = s.sent ∧ (s.record id f).ready = s.ready ∧ (s.record id f).taking = s.taking ∧
      s.fateSeq ≤ (s.record id f).fateSeq := by
  unfold record
  split <;> simp [sent]

theorem shrinks_recordReleased (s : State B) (functionId : String) : Shrinks s (s.recordReleased functionId) := by
  obtain ⟨hitems, hparked, hflush, hsent, hready, htaking, hseq⟩ :=
    record_frame s functionId fun seq fates => { fates with released := seq }
  unfold recordReleased
  constructor
  · rw [hitems]
  · rw [hparked]
    exact fun _ h => h
  · exact hflush
  · exact hsent
  · rw [hready]
    exact fun _ h => h
  · exact htaking
  · exact hseq
  · intro id
    rw [fatesOf_record]
    split <;> exact Nat.le_refl _

theorem shrinks_discard (s : State B) (functionId : String) : Shrinks s (s.discard functionId) := by
  unfold discard
  extract_lets recorded dropped
  refine (shrinks_recordReleased s functionId).trans (Shrinks.trans ?_ (shrinks_release _ functionId dropped))
  refine ⟨?_, ?_, rfl, rfl, fun _ h => h, rfl, Nat.le_refl _, fun _ => Nat.le_refl _⟩
  · exact List.filter_sublist.map _
  · exact fun m hm => (List.mem_filter.mp hm).1

theorem shrinks_expireParked (s : State B) (expired : List String) : Shrinks s (s.expireParked expired) := by
  induction expired generalizing s with
  | nil => exact Shrinks.refl s
  | cons functionId rest ih =>
    rw [expireParked]
    split
    · exact ih s
    · rename_i items _
      have herase : Shrinks s { s with parked := Assoc.erase s.parked functionId } :=
        ⟨List.Sublist.refl _, fun m hm => (List.mem_filter.mp hm).1, rfl, rfl, fun _ h => h, rfl, Nat.le_refl _,
          fun _ => Nat.le_refl _⟩
      refine Shrinks.trans ?_ (ih _)
      exact (herase.trans (shrinks_recordReleased _ functionId)).trans (shrinks_release _ functionId items)

theorem shrinks_close (s : State B) : Shrinks s s.close := by
  have hclosed : Shrinks s { s with closed := true, items := [], parked := [] } := by
    refine ⟨?_, ?_, rfl, rfl, fun _ h => h, rfl, Nat.le_refl _, fun _ => Nat.le_refl _⟩
    · exact List.nil_sublist _
    · simp
  exact (hclosed.trans (shrinks_releaseItems _ _)).trans (shrinks_releaseParked _ _)

theorem shrinks_makeRoom (L : Limits) (item : Item B) (n : Nat) (s : State B) : Shrinks s (makeRoom L item n s) := by
  induction n generalizing s with
  | zero => exact Shrinks.refl s
  | succ n ih =>
    rw [makeRoom]
    split
    · split
      · split
        · refine Shrinks.trans ?_ (ih _)
          refine ⟨?_, fun _ h => h, rfl, rfl, fun _ h => h, rfl, Nat.le_refl _, fun _ => Nat.le_refl _⟩
          exact (List.dropLast_sublist _).map _
        · exact Shrinks.refl s
      · exact Shrinks.refl s
    · exact Shrinks.refl s

theorem requeue_spec (L : Limits) (s : State B) (items : List (Item B)) :
    Shrinks s (s.requeue L items).1 ∧ (s.requeue L items).2.Sublist items := by
  induction items generalizing s with
  | nil => exact ⟨Shrinks.refl s, List.Sublist.refl _⟩
  | cons item rest ih =>
    have hroom := shrinks_makeRoom L item s.items.length s
    rw [requeue]
    split
    · obtain ⟨hshrink, hsub⟩ := ih ((makeRoom L item s.items.length s).tallied item.functionId .bufferFull [some item.seq])
      exact ⟨(hroom.trans (shrinks_tallied _ _ _ _)).trans hshrink, hsub.cons _⟩
    · obtain ⟨hshrink, hsub⟩ := ih
        { makeRoom L item s.items.length s with
          bytes := (makeRoom L item s.items.length s).bytes + item.estimatedSize
          count := (makeRoom L item s.items.length s).count + 1 }
      refine ⟨hroom.trans (Shrinks.trans ?_ hshrink), hsub.cons_cons _⟩
      exact ⟨List.Sublist.refl _, fun _ h => h, rfl, rfl, fun _ h => h, rfl, Nat.le_refl _, fun _ => Nat.le_refl _⟩

/-! ### The other steps -/

theorem Books.seq_le (h : Books 0 0 s) (hx : x ∈ s.buffered ∨ x ∈ s.sent) : x.seq ≤ s.nextSeq := by
  have hmem : x.seq ∈ (s.bag + 0 + (s.sent : Multiset (Item B))).map Item.seq + 0 + (s.lost : Multiset Nat) := by
    rw [add_zero, add_zero, Multiset.mem_add]
    left
    apply Multiset.mem_map_of_mem
    rw [Multiset.mem_add]
    exact hx
  rw [h.seqs, Multiset.mem_coe, List.mem_range'_1] at hmem
  omega

theorem Ordered.push (L : Limits) (item : Item B) (hs : Ordered s) (hbooks : Books 0 0 s) : Ordered (s.push L item) := by
  unfold State.push
  extract_lets size
  split
  · exact hs.shrink (shrinks_tallied s _ _ _)
  · split
    · exact hs.shrink (shrinks_tallied s _ _ _)
    · split
      · -- an emit joins the last item
        rename_i last hjoin
        obtain ⟨init, hinit⟩ := joins_eq_some hjoin
        refine hs.shrink ⟨?_, fun _ h => h, rfl, rfl, fun _ h => h, rfl, Nat.le_refl _, fun _ => Nat.le_refl _⟩
        show ((s.items.dropLast ++ [last.join item]).map Item.key).Sublist _
        rw [hinit, List.dropLast_concat, List.map_append, List.map_append]
        exact List.Sublist.refl _
      · split
        · exact hs.shrink (shrinks_tallied s _ _ _)
        · -- the new item is the newest of all
          constructor
          · apply hs.items.append (List.pairwise_singleton _ _)
            intro a ha b hb
            rw [List.mem_singleton.mp hb]
            exact Nat.le_succ_of_le (hbooks.seq_le (.inl (mem_buffered.mpr (.inl ha))))
          · exact hs.parked
          · intro f hf
            have hrun := hs.flush f hf
            refine ⟨hrun.sendable, hrun.held, hrun.send, hrun.hold, hrun.taking, hrun.since, hrun.passed, ?_,
              hrun.confirmed⟩
            intro x hx hgate y hy
            rcases List.mem_append.mp hy with hy | hy
            · exact hrun.first hx hgate y hy
            · rw [List.mem_singleton.mp hy]
              intro _
              have hall : x ∈ f.all := by
                unfold Flush.all
                simp only [List.mem_append] at hx ⊢
                tauto
              exact Nat.le_succ_of_le (hbooks.seq_le (.inl (mem_buffered.mpr (.inr (.inr ⟨f, hf, hall⟩)))))
          · exact hs.ready
          · exact hs.sent
          · intro x hx y hy
            rcases mem_buffered.mp hy with hy | hy | hy
            · rcases List.mem_append.mp hy with hy | hy
              · exact hs.after x hx y (mem_buffered.mpr (.inl hy))
              · rw [List.mem_singleton.mp hy]
                exact fun _ => Nat.le_succ_of_le (hbooks.seq_le (.inr hx))
            · exact hs.after x hx y (mem_buffered.mpr (.inr (.inl hy)))
            · exact hs.after x hx y (mem_buffered.mpr (.inr (.inr hy)))

/-- A confirmation: the parked items of the function, if any, go back in line. -/
theorem unpark_spec (s : State B) (id : String) :
    (s.unpark id).items = mergeIn s.items ((Assoc.get? s.parked id).getD []) ∧
      (s.unpark id).parked = Assoc.erase s.parked id ∧ (s.unpark id).flush = s.flush ∧ (s.unpark id).sent = s.sent ∧
      (s.unpark id).ready = s.ready ∧ (s.unpark id).taking = s.taking ∧ s.fateSeq ≤ (s.unpark id).fateSeq ∧
      (s.unpark id).fates = (s.recordUnparked id).fates := by
  obtain ⟨hitems, hparked, hflush, hsent, hready, htaking, hseq⟩ :=
    record_frame s id fun seq fates => { fates with unparked := seq }
  unfold unpark
  dsimp only
  split
  · rename_i hnone
    have hnone' : Assoc.get? s.parked id = none := hparked ▸ hnone
    rw [hnone', Assoc.erase_eq_self hnone']
    exact ⟨hitems, hparked, hflush, hsent, hready, htaking, hseq, rfl⟩
  · rename_i items hsome
    have hsome' : Assoc.get? s.parked id = some items := hparked ▸ hsome
    rw [hsome']
    refine ⟨?_, ?_, hflush, hsent, hready, htaking, hseq, rfl⟩
    · show mergeIn (s.recordUnparked id).items items = _
      rw [recordUnparked, hitems, Option.getD_some]
    · show Assoc.erase (s.recordUnparked id).parked id = _
      rw [recordUnparked, hparked]

theorem Ordered.unpark (hs : Ordered s) (id : String) (current : Bool) :
    Ordered { s.unpark id with ready := Function.update (s.unpark id).ready id current } := by
  obtain ⟨hitems, hparked, hflush, hsent, hready, htaking, hseq, hfates⟩ := unpark_spec s id
  generalize hlist : (Assoc.get? s.parked id).getD [] = list at hitems
  have hlist' : ∀ y ∈ list, y ∈ s.parked.flatMap (·.2) ∧ y.functionId = id ∧ Assoc.get? s.parked id ≠ none := by
    intro y hy
    cases hget : Assoc.get? s.parked id with
    | none => simp_all
    | some items =>
      obtain rfl : items = list := by simpa [hget] using hlist
      exact ⟨Assoc.mem_flatMap_of_get? hget hy, (hs.parked _ (Assoc.mem_of_get? hget)).2 y hy, Option.some_ne_none _⟩
  have hsorted : Sorted list := by
    cases hget : Assoc.get? s.parked id with
    | none =>
      rw [hget] at hlist
      rw [← hlist]
      exact List.Pairwise.nil
    | some items =>
      obtain rfl : items = list := by simpa [hget] using hlist
      exact (hs.parked _ (Assoc.mem_of_get? hget)).1
  have hfewer : ∀ {other}, Assoc.get? s.parked other = none → Assoc.get? (s.unpark id).parked other = none := by
    intro other hnone
    rw [hparked, Assoc.get?_erase, hnone, ite_self]
  constructor
  · show Sorted (s.unpark id).items
    rw [hitems]
    exact mergeIn_sorted hs.items hsorted
  · intro m hm
    replace hm : m ∈ (s.unpark id).parked := hm
    rw [hparked] at hm
    exact hs.parked m (List.mem_filter.mp hm).1
  · intro f hf
    have hrun := hs.flush f (hflush ▸ hf)
    refine ⟨hrun.sendable, hrun.held, hrun.send, hrun.hold, htaking.trans hrun.taking,
      Nat.le_trans hrun.since hseq, fun hgate => hfewer (hrun.passed hgate), ?_, ?_⟩
    · intro x hx hgate y hy hsame
      replace hy : y ∈ (s.unpark id).items := hy
      rw [hitems, mem_mergeIn] at hy
      rcases hy with hy | hy
      · exact hrun.first hx hgate y hy hsame
      · -- what was let through has nothing parked
        obtain ⟨_, hfunction, hsome⟩ := hlist' y hy
        rw [hsame, hfunction] at hgate
        exact absurd (hrun.passed hgate) hsome
    · intro other hgate hon
      show f.since < ((Assoc.get? (s.unpark id).fates other).getD ⟨0, 0⟩).unparked
      rw [hfates]
      show f.since < ((s.recordUnparked id).fatesOf other).unparked
      rw [recordUnparked, fatesOf_record]
      by_cases hother : id = other
      · rw [if_pos ⟨hrun.taking, hother⟩]
        exact Nat.lt_succ_of_le hrun.since
      · rw [if_neg (fun h => hother h.2)]
        apply hrun.confirmed hgate
        replace hon : Function.update (s.unpark id).ready id current other = true := hon
        rw [Function.update_of_ne (Ne.symm hother), hready] at hon
        exact hon
  · intro other hon
    replace hon : Function.update (s.unpark id).ready id current other = true := hon
    show Assoc.get? (s.unpark id).parked other = none
    by_cases hother : id = other
    · rw [hparked, Assoc.get?_erase, if_pos hother]
    · rw [Function.update_of_ne (Ne.symm hother), hready] at hon
      exact hfewer (hs.ready other hon)
  · show (s.unpark id).sent.Pairwise Before
    rw [hsent]
    exact hs.sent
  · intro x hx y hy
    replace hx : x ∈ (s.unpark id).sent := hx
    rw [hsent] at hx
    apply hs.after x hx
    rcases mem_buffered.mp hy with hy | hy | ⟨f, hf, hy⟩
    · replace hy : y ∈ (s.unpark id).items := hy
      rw [hitems, mem_mergeIn] at hy
      rcases hy with hy | hy
      · exact mem_buffered.mpr (.inl hy)
      · exact mem_buffered.mpr (.inr (.inl (hlist' y hy).1))
    · replace hy : y ∈ (s.unpark id).parked.flatMap (·.2) := hy
      rw [hparked] at hy
      obtain ⟨m, hm, hy⟩ := List.mem_flatMap.mp hy
      exact mem_buffered.mpr (.inr (.inl (List.mem_flatMap.mpr ⟨m, (List.mem_filter.mp hm).1, hy⟩)))
    · exact mem_buffered.mpr (.inr (.inr ⟨f, hflush ▸ hf, hy⟩))

theorem Ordered.take (hs : Ordered s) : Ordered s.take := by
  constructor
  · exact List.Pairwise.nil
  · exact hs.parked
  · intro f hf
    cases hf
    refine ⟨hs.items, hs.items, ?_, ?_, rfl, Nat.le_refl _, ?_, ?_, ?_⟩ <;> simp
  · exact hs.ready
  · exact hs.sent
  · intro x hx y hy
    apply hs.after x hx
    rcases mem_buffered.mp hy with hy | hy | ⟨f, hf, hy⟩
    · cases hy
    · exact mem_buffered.mpr (.inr (.inl hy))
    · cases hf
      apply mem_buffered.mpr
      left
      simpa [Flush.all] using hy

/-! ### Gates -/

theorem Running.sort {item : Item B} {rest : List (Item B)} {answer : Gate} (hrun : Running s f)
    (htaken : f.taken = item :: rest) (hgate : Assoc.get? f.gates item.functionId = some answer) :
    Running s (Flush.sort f item rest answer) := by
  obtain ⟨hsendable, hheld, hsend, hhold, htaking, hsince, hpassed, hfirst, hconfirmed⟩ := hrun
  rw [htaken] at hsendable hheld hfirst
  have hskip : ∀ l : List (Item B), (l ++ rest).Sublist (l ++ item :: rest) := fun l =>
    (List.Sublist.refl l).append (List.sublist_cons_self item rest)
  cases answer with
  | send =>
    refine ⟨?_, hheld.sublist (hskip _), ?_, hhold, htaking, hsince, hpassed, ?_, hconfirmed⟩
    · show Sorted (f.sendable ++ [item] ++ rest)
      rw [List.append_assoc]
      exact hsendable
    · intro x hx
      rcases List.mem_append.mp hx with hx | hx
      · exact hsend x hx
      · rw [List.mem_singleton.mp hx]
        exact hgate
    · intro x hx
      replace hx : x ∈ f.sendable ++ [item] ++ rest := hx
      rw [List.append_assoc] at hx
      exact hfirst hx
  | hold =>
    refine ⟨hsendable.sublist (hskip _), ?_, hsend, ?_, htaking, hsince, hpassed, ?_, hconfirmed⟩
    · show Sorted (f.held ++ [item] ++ rest)
      rw [List.append_assoc]
      exact hheld
    · intro x hx
      rcases List.mem_append.mp hx with hx | hx
      · exact hhold x hx
      · rw [List.mem_singleton.mp hx]
        exact hgate
    · exact fun hx => hfirst ((hskip _).subset hx)
  | drop =>
    exact ⟨hsendable.sublist (hskip _), hheld.sublist (hskip _), hsend, hhold, htaking, hsince, hpassed,
      fun hx => hfirst ((hskip _).subset hx), hconfirmed⟩

/-- The gate is asked for a function. -/
theorem Running.ask {id : String} {answer : Gate} (hrun : Running s f) (hnew : Assoc.get? f.gates id = none)
    (hmay : s.mayAnswer f id answer = true) (hparked : s.ready id = true → Assoc.get? s.parked id = none)
    (hclear : answer = .send → ∀ x ∈ f.taken, x.functionId = id → ∀ y ∈ s.items, Before x y) :
    Running s { f with gates := Assoc.insert f.gates id answer } := by
  have hnot : ∀ {other gate}, Assoc.get? f.gates other = some gate → id ≠ other := by
    intro other gate hget heq
    rw [heq, hget] at hnew
    cases hnew
  have hkeep : ∀ {other gate}, Assoc.get? f.gates other = some gate →
      Assoc.get? (Assoc.insert f.gates id answer) other = some gate := by
    intro other gate hget
    rw [Assoc.get?_insert, if_neg (hnot hget)]
    exact hget
  refine ⟨hrun.sendable, hrun.held, fun x hx => hkeep (hrun.send x hx), fun x hx => hkeep (hrun.hold x hx),
    hrun.taking, hrun.since, ?_, ?_, ?_⟩
  · intro other hgate
    replace hgate : Assoc.get? (Assoc.insert f.gates id answer) other = some .send := hgate
    rw [Assoc.get?_insert] at hgate
    split at hgate
    · rename_i heq
      cases hgate
      exact heq ▸ hparked hmay
    · exact hrun.passed hgate
  · intro x hx hgate y hy
    replace hgate : Assoc.get? (Assoc.insert f.gates id answer) x.functionId = some .send := hgate
    rw [Assoc.get?_insert] at hgate
    split at hgate
    · rename_i heq
      rcases List.mem_append.mp hx with hx | hx
      · exact absurd heq (hnot (hrun.send x hx))
      · exact hclear (by simpa using hgate) x hx heq.symm y hy
    · exact hrun.first hx hgate y hy
  · intro other hgate hready
    replace hgate : Assoc.get? (Assoc.insert f.gates id answer) other = some .hold := hgate
    rw [Assoc.get?_insert] at hgate
    split at hgate
    · rename_i heq
      cases hgate
      rw [← heq] at hready ⊢
      simpa [mayAnswer, hready] using hmay
    · exact hrun.confirmed hgate hready

theorem Ordered.sort {g : Flush B} {item : Item B} {rest : List (Item B)} {answer : Gate} (hs : Ordered s)
    (hflush : s.flush = some f) (hall : g.all = f.all) (hrun : Running s g) (htaken : g.taken = item :: rest)
    (hgate : Assoc.get? g.gates item.functionId = some answer) :
    Ordered { s with flush := some (Flush.sort g item rest answer) } := by
  refine ⟨hs.items, hs.parked, ?_, hs.ready, hs.sent, ?_⟩
  · intro h heq
    cases heq
    have hsort := hrun.sort htaken hgate
    exact ⟨hsort.sendable, hsort.held, hsort.send, hsort.hold, hsort.taking, hsort.since, hsort.passed, hsort.first,
      hsort.confirmed⟩
  · intro x hx y hy
    apply hs.after x hx
    rcases mem_buffered.mp hy with hy | hy | ⟨h, heq, hy⟩
    · exact mem_buffered.mpr (.inl hy)
    · exact mem_buffered.mpr (.inr (.inl hy))
    · cases heq
      have hperm := Multiset.coe_eq_coe.mp (Flush.all_sort g htaken answer)
      rw [hperm.mem_iff, hall] at hy
      exact mem_buffered.mpr (.inr (.inr ⟨f, hflush, hy⟩))

/-! ### The end of a flush -/

theorem ParkedOk.insert (h : ParkedOk parked) (item : Item B) :
    ParkedOk (Assoc.insert parked item.functionId
      (insertInOrder ((Assoc.get? parked item.functionId).getD []) item)) := by
  intro m hm
  rcases Assoc.mem_insert hm with hm | rfl
  · exact h m hm
  · have hlist : Sorted ((Assoc.get? parked item.functionId).getD []) ∧
        ∀ x ∈ (Assoc.get? parked item.functionId).getD [], x.functionId = item.functionId := by
      cases hget : Assoc.get? parked item.functionId with
      | none => exact ⟨List.Pairwise.nil, by simp⟩
      | some list => exact h _ (Assoc.mem_of_get? hget)
    refine ⟨insertInOrder_sorted hlist.1 item, ?_⟩
    intro x hx
    rcases mem_insertInOrder.mp hx with rfl | hx
    · rfl
    · exact hlist.2 x hx

theorem mem_park {item : Item B}
    (hx : x ∈ (Assoc.insert parked item.functionId
      (insertInOrder ((Assoc.get? parked item.functionId).getD []) item)).flatMap (·.2)) :
    x = item ∨ x ∈ parked.flatMap (·.2) := by
  obtain ⟨m, hm, hx⟩ := List.mem_flatMap.mp hx
  rcases Assoc.mem_insert hm with hm | rfl
  · exact .inr (List.mem_flatMap.mpr ⟨m, hm, hx⟩)
  · rcases mem_insertInOrder.mp hx with hx | hx
    · exact .inl hx
    · cases hget : Assoc.get? parked item.functionId with
      | none => simp [hget] at hx
      | some list => exact .inr (Assoc.mem_flatMap_of_get? hget (by simpa [hget] using hx))

/-- What became of the held items: back in line, or parked, unless they were dropped. -/
structure Settled (since : Nat) (held : List (Item B)) (s : State B) (p : State B × List (Item B)) : Prop where
  requeued : p.2.Sublist held
  items : p.1.items = s.items
  sent : p.1.sent = s.sent
  ready : p.1.ready = s.ready
  flush : p.1.flush = s.flush
  parkedOk : ParkedOk s.parked → ParkedOk p.1.parked
  mem : ∀ x ∈ p.1.parked.flatMap (·.2), x ∈ held ∨ x ∈ s.parked.flatMap (·.2)
  parked : ∀ id, Assoc.get? s.parked id = none → Assoc.get? p.1.parked id ≠ none →
    ∃ x ∈ held, x.functionId = id ∧ ¬ since < (s.fatesOf id).unparked

theorem release_frame (s : State B) (functionId : String) (items : List (Item B)) :
    (s.release functionId items).items = s.items ∧ (s.release functionId items).sent = s.sent ∧
      (s.release functionId items).ready = s.ready ∧ (s.release functionId items).flush = s.flush ∧
      (s.release functionId items).parked = s.parked ∧ (s.release functionId items).fates = s.fates := by
  unfold release
  split <;> exact ⟨rfl, rfl, rfl, rfl, rfl, rfl⟩

theorem settle_spec (since : Nat) (held : List (Item B)) (s : State B) : Settled since held s (s.settle since held) := by
  induction held generalizing s with
  | nil => exact ⟨List.Sublist.refl _, rfl, rfl, rfl, rfl, id, fun _ h => .inr h, fun _ h h' => absurd h h'⟩
  | cons item rest ih =>
    rw [settle]
    extract_lets fates
    split
    · -- released
      obtain ⟨hitems, hsent, hready, hflush, hparked, hfates⟩ := release_frame s item.functionId [item]
      have hrest := ih (s.release item.functionId [item])
      refine ⟨hrest.requeued.cons _, hrest.items.trans hitems, hrest.sent.trans hsent, hrest.ready.trans hready,
        hrest.flush.trans hflush, ?_, ?_, ?_⟩
      · exact fun h => hrest.parkedOk (hparked ▸ h)
      · intro x hx
        rcases hrest.mem x hx with hx | hx
        · exact .inl (List.mem_cons_of_mem _ hx)
        · exact .inr (hparked ▸ hx)
      · intro id hnone hsome
        obtain ⟨x, hx, hid, hlate⟩ := hrest.parked id (hparked ▸ hnone) hsome
        unfold fatesOf at hlate
        rw [hfates] at hlate
        exact ⟨x, List.mem_cons_of_mem _ hx, hid, hlate⟩
    · split
      · -- confirmed meanwhile
        have hrest := ih s
        refine ⟨hrest.requeued.cons_cons _, hrest.items, hrest.sent, hrest.ready, hrest.flush, hrest.parkedOk, ?_, ?_⟩
        · intro x hx
          rcases hrest.mem x hx with hx | hx
          · exact .inl (List.mem_cons_of_mem _ hx)
          · exact .inr hx
        · intro id hnone hsome
          obtain ⟨x, hx, hid, hlate⟩ := hrest.parked id hnone hsome
          exact ⟨x, List.mem_cons_of_mem _ hx, hid, hlate⟩
      · -- parked
        rename_i hlate
        have hrest := ih
          { s with parked :=
              Assoc.insert s.parked item.functionId (insertInOrder ((Assoc.get? s.parked item.functionId).getD []) item) }
        refine ⟨hrest.requeued.cons _, hrest.items, hrest.sent, hrest.ready, hrest.flush, ?_, ?_, ?_⟩
        · exact fun h => hrest.parkedOk (h.insert item)
        · intro x hx
          rcases hrest.mem x hx with hx | hx
          · exact .inl (List.mem_cons_of_mem _ hx)
          · rcases mem_park hx with rfl | hx
            · exact .inl (List.mem_cons_self ..)
            · exact .inr hx
        · intro id hnone hsome
          by_cases hid : item.functionId = id
          · exact ⟨item, List.mem_cons_self .., hid, hid ▸ hlate⟩
          · obtain ⟨x, hx, hx'⟩ := hrest.parked id (by rwa [Assoc.get?_insert, if_neg hid]) hsome
            exact ⟨x, List.mem_cons_of_mem _ hx, hx'⟩

theorem dropItems_frame (s : State B) (reason : Reason) (items : List (Item B)) :
    (s.dropItems reason items).items = s.items ∧ (s.dropItems reason items).parked = s.parked ∧
      (s.dropItems reason items).flush = s.flush ∧ (s.dropItems reason items).ready = s.ready ∧
      (s.dropItems reason items).written = s.written ∧ (s.dropItems reason items).outbox = s.outbox := by
  induction items generalizing s with
  | nil => exact ⟨rfl, rfl, rfl, rfl, rfl, rfl⟩
  | cons item rest ih => exact ih (s.tallied item.functionId reason [some item.seq])

/-- The last section: the sendable items leave, the held ones are settled. -/
theorem endFlush_spec (J : Wire B) (L : Limits) (s : State B) (f : Flush B) :
    ∃ p, Settled f.since f.held { s with flush := none } p ∧ (s.endFlush J L f).flush = none ∧
      (s.endFlush J L f).items = mergeIn s.items p.2 ∧ (s.endFlush J L f).parked = p.1.parked ∧
      (s.endFlush J L f).ready = s.ready ∧
      (s.endFlush J L f).sent = s.sent ++ f.sendable.filter fun item => J.json item ≤ largestItem L := by
  unfold endFlush
  extract_lets gone s₁ out
  have hsettle := settle_spec f.since f.held s₁
  split
  rename_i s₂ requeued hpair
  extract_lets s₃ s₄
  rw [hpair] at hsettle
  obtain ⟨hitems, hparked, hflush, hready, hwritten, houtbox⟩ :=
    dropItems_frame (s₃.dropItems .inactive f.dropped) .tooLarge (tooLarge J L f.sendable)
  obtain ⟨hitems', hparked', hflush', hready', hwritten', houtbox'⟩ := dropItems_frame s₃ .inactive f.dropped
  refine ⟨(s₂, requeued), ?_, ?_, ?_, ?_, ?_, ?_⟩
  · obtain ⟨h₁, h₂, h₃, h₄, h₅, h₆, h₇, h₈⟩ := hsettle
    exact ⟨h₁, h₂, h₃, h₄, h₅, h₆, h₇, h₈⟩
  · exact (hflush.trans hflush').trans hsettle.flush
  · rw [← show s₂.items = s.items from hsettle.items]
    exact hitems.trans hitems'
  · exact hparked.trans hparked'
  · exact (hready.trans hready').trans hsettle.ready
  · show s₄.written ++ (s₄.outbox ++ out).flatMap Frame.items = _
    rw [hwritten.trans hwritten', houtbox.trans houtbox', List.flatMap_append, ← List.append_assoc]
    congr 1
    · exact hsettle.sent
    · exact frames_items J L f.sendable

theorem Ordered.endFlush (J : Wire B) (L : Limits) (hs : Ordered s) (hflush : s.flush = some f) :
    Ordered (s.endFlush J L f) := by
  have hrun := hs.flush f hflush
  obtain ⟨p, hsettled, hnone, hitems, hparked, hready, hsent⟩ := endFlush_spec J L s f
  have hleave : ∀ {x}, x ∈ f.sendable.filter (fun item => J.json item ≤ largestItem L) → x ∈ f.sendable := fun hx =>
    (List.mem_filter.mp hx).1
  -- what a flush sends and what it held are of different functions
  have hapart : ∀ {x y}, x ∈ f.sendable → y ∈ f.held → x.functionId ≠ y.functionId := by
    intro x y hx hy heq
    have hsend := hrun.send x hx
    rw [heq, hrun.hold y hy] at hsend
    cases hsend
  have hflushed : ∀ {y}, y ∈ f.sendable ∨ y ∈ f.held → y ∈ s.buffered := by
    intro y hy
    apply mem_buffered.mpr
    refine .inr (.inr ⟨f, hflush, ?_⟩)
    unfold Flush.all
    simp only [List.mem_append]
    tauto
  have hbuffered : ∀ {y}, y ∈ (s.endFlush J L f).buffered → y ∈ s.items ∨ y ∈ s.parked.flatMap (·.2) ∨ y ∈ f.held := by
    intro y hy
    rcases mem_buffered.mp hy with hy | hy | ⟨g, hg, _⟩
    · rw [hitems, mem_mergeIn] at hy
      rcases hy with hy | hy
      · exact .inl hy
      · exact .inr (.inr (hsettled.requeued.subset hy))
    · rw [hparked] at hy
      rcases hsettled.mem y hy with hy | hy
      · exact .inr (.inr hy)
      · exact .inr (.inl hy)
    · rw [hnone] at hg
      cases hg
  constructor
  · rw [hitems]
    apply mergeIn_sorted hs.items
    exact (hrun.held.sublist (List.sublist_append_left _ _)).sublist hsettled.requeued
  · rw [hparked]
    exact hsettled.parkedOk hs.parked
  · intro g hg
    rw [hnone] at hg
    cases hg
  · intro id hid
    rw [hready] at hid
    rw [hparked]
    by_contra hsome
    obtain ⟨x, hx, hfunction, hlate⟩ := hsettled.parked id (hs.ready id hid) hsome
    have hgate := hrun.hold x hx
    rw [hfunction] at hgate
    exact hlate (hrun.confirmed hgate hid)
  · rw [hsent]
    refine List.pairwise_append.mpr ⟨hs.sent, ?_, ?_⟩
    · have hsorted := (hrun.sendable.sublist (List.sublist_append_left _ _)).sublist
        (List.filter_sublist (p := fun item => decide (J.json item ≤ largestItem L)))
      exact hsorted.before
    · exact fun x hx y hy => hs.after x hx y (hflushed (.inl (hleave hy)))
  · intro x hx y hy
    rw [hsent] at hx
    rcases List.mem_append.mp hx with hx | hx
    · apply hs.after x hx
      rcases hbuffered hy with hy | hy | hy
      · exact mem_buffered.mpr (.inl hy)
      · exact mem_buffered.mpr (.inr (.inl hy))
      · exact hflushed (.inr hy)
    · have hx := hleave hx
      have hgate := hrun.send x hx
      rcases hbuffered hy with hy | hy | hy
      · exact hrun.first (List.mem_append_left _ hx) hgate y hy
      · intro hsame
        rw [hsame] at hgate
        exact absurd (hrun.passed hgate) (hs.parked.get?_ne_none hy)
      · exact fun hsame => absurd hsame (hapart hx hy)

theorem Ordered.write {frame : Frame B} {rest : List (Frame B)} (hs : Ordered s) (houtbox : s.outbox = frame :: rest) :
    Ordered (unlease { s with outbox := rest, written := s.written ++ frame.items } frame.bytes) := by
  refine hs.shrink ⟨List.Sublist.refl _, fun _ h => h, rfl, ?_, fun _ h => h, rfl, Nat.le_refl _, fun _ => Nat.le_refl _⟩
  show s.written ++ frame.items ++ rest.flatMap Frame.items = s.written ++ s.outbox.flatMap Frame.items
  rw [houtbox, List.flatMap_cons, List.append_assoc]

theorem Ordered.connect (J : Wire B) (L : Limits) (hs : Ordered s) (hidle : s.flush = none) :
    Ordered (s.connect J L) := by
  unfold State.connect
  extract_lets s'
  have hwritten : s'.sent = s.written := List.append_nil _
  -- without its frames the buffer is in order
  have hs' : Ordered s' := by
    refine ⟨hs.items, hs.parked, ?_, ?_, ?_, ?_⟩
    · intro f hf
      cases hidle.symm.trans hf
    · intro id hid
      cases hid
    · rw [hwritten]
      exact hs.sent.sublist (List.sublist_append_left _ _)
    · intro x hx y hy
      rw [hwritten] at hx
      exact hs.after x (List.mem_append_left _ hx) y hy
  unfold requeueFrames
  extract_lets sorted
  split
  · exact hs'.shrink (shrinks_dropItems _ _ _)
  · obtain ⟨hshrink, hsub⟩ := requeue_spec L s' sorted
    generalize s'.requeue L sorted = p at hshrink hsub
    have hp := hs'.shrink hshrink
    have hback : ∀ y ∈ p.2, ∀ x ∈ p.1.sent, Before x y := by
      intro y hy x hx
      have hmem := (List.perm_insertionSort _ _).mem_iff.mp (hsub.subset hy)
      obtain ⟨z, hz, rfl⟩ := List.mem_map.mp hmem
      rw [hshrink.sent, hwritten] at hx
      exact (List.pairwise_append.mp hs.sent).2.2 x hx z hz
    refine ⟨?_, hp.parked, ?_, hp.ready, hp.sent, ?_⟩
    · exact mergeIn_sorted hp.items ((insertionSort_sorted _).sublist hsub)
    · intro f hf
      have hnone : p.1.flush = none := hshrink.flush.trans hidle
      cases hnone.symm.trans hf
    · intro x hx y hy
      rcases mem_buffered.mp hy with hy | hy | hy
      · rcases mem_mergeIn.mp hy with hy | hy
        · exact hp.after x hx y (mem_buffered.mpr (.inl hy))
        · exact hback y hy x hx
      · exact hp.after x hx y (mem_buffered.mpr (.inr (.inl hy)))
      · exact hp.after x hx y (mem_buffered.mpr (.inr (.inr hy)))

/-! ### Runs -/

/-- When the gate lets a function through, none of its items that is back in line is older than one
the flush took. -/
def clear (s : State B) : Act B → Bool
  | .gate .send =>
    match s.flush with
    | some f =>
      match f.taken with
      | item :: _ =>
        (Assoc.get? f.gates item.functionId).isSome ||
          f.taken.all fun x => s.items.all fun y =>
            x.functionId ≠ item.functionId || y.functionId ≠ item.functionId || x.seq < y.seq
      | [] => true
    | none => true
  | _ => true

theorem Ordered.step {J : Wire B} {L : Limits} {a : Act B} (hs : Ordered s) (hbooks : Books 0 0 s)
    (hclear : s.clear a = true) (hstep : s.step J L a = some s') : Ordered s' := by
  cases effect_of_step hstep with
  | push item => exact hs.push L item hbooks
  | unpark functionId current => exact hs.unpark functionId current
  | unready functionId =>
    refine hs.shrink ⟨List.Sublist.refl _, fun _ h => h, rfl, rfl, ?_, rfl, Nat.le_refl _, fun _ => Nat.le_refl _⟩
    intro id hid
    replace hid : Function.update s.ready functionId false id = true := hid
    by_cases h : id = functionId
    · rw [h, Function.update_self] at hid
      cases hid
    · rwa [Function.update_of_ne h] at hid
  | discard functionId => exact hs.shrink (shrinks_discard s functionId)
  | expireParked expired => exact hs.shrink (shrinks_expireParked s expired)
  | close => exact hs.shrink (shrinks_close s)
  | takeDrops =>
    exact hs.shrink ⟨List.Sublist.refl _, fun _ h => h, rfl, rfl, fun _ h => h, rfl, Nat.le_refl _, fun _ => Nat.le_refl _⟩
  | take => exact hs.take
  | cached hflush htaken hcached => exact hs.sort hflush rfl (hs.flush _ hflush) htaken hcached
  | @asked f item rest answer hflush htaken hnew hmay =>
    have hask : Running s { f with gates := Assoc.insert f.gates item.functionId answer } := by
      apply (hs.flush f hflush).ask hnew hmay (hs.ready item.functionId)
      intro hanswer x hx hfunction y hy hsame
      subst hanswer
      simp only [clear, hflush, htaken, hnew] at hclear
      simp only [Option.isSome_none, Bool.false_or, List.all_eq_true] at hclear
      have hlt := hclear x (htaken ▸ hx) y hy
      simp only [ne_eq, hfunction, hsame.symm.trans hfunction, not_true_eq_false, decide_false, Bool.or_false,
        Bool.false_or, decide_eq_true_eq] at hlt
      omega
    refine hs.sort hflush ?_ hask htaken ?_
    · rfl
    · show Assoc.get? (Assoc.insert f.gates item.functionId answer) item.functionId = some answer
      rw [Assoc.get?_insert, if_pos rfl]
  | endFlush hflush => exact hs.endFlush J L hflush
  | write houtbox => exact hs.write houtbox
  | disconnect =>
    refine hs.shrink ⟨List.Sublist.refl _, fun _ h => h, rfl, rfl, ?_, rfl, Nat.le_refl _, fun _ => Nat.le_refl _⟩
    intro id hid
    cases hid
  | connect hidle => exact hs.connect J L hidle

end State

section
variable {J : Wire B} {L : Limits} {tr : List (Act B × Unit)}

/-- Where the `seq`s are: in a list, in a frame, or in a drop counter. -/
def State.places (s : State B) : List Nat := (s.buffered ++ s.sent).map Item.seq ++ s.lost

theorem State.Books.places (h : s.Books 0 0) : s.places.Perm (List.range' 1 s.nextSeq) := by
  apply Multiset.coe_eq_coe.mp
  rw [← h.seqs]
  simp only [State.places, List.map_append, ← Multiset.coe_add, Multiset.map_add, Multiset.map_coe, State.bag]
  abel

/-- In order, and no `seq` twice. -/
theorem Sorted.strict {l : List (Item B)} (h : Sorted l) (hnodup : (l.map Item.seq).Nodup) :
    l.Pairwise fun x y => x.seq < y.seq := by
  have hne : l.Pairwise fun x y => x.seq ≠ y.seq := List.pairwise_map.mp hnodup
  exact h.imp₂ (fun _ _ hle hne => Nat.lt_of_le_of_ne hle hne) hne

theorem run_invariant (hrun : ((machine J L).only fun s a => s.clear a = true).Run State.start tr s) :
    s.Books 0 0 ∧ s.Ordered := by
  refine hrun.invariant (I := fun s => s.Books 0 0 ∧ s.Ordered) ⟨State.Books.start, State.Ordered.start⟩ ?_
  intro s a r s' ⟨hbooks, hordered⟩ ⟨hclear, hstep⟩
  exact ⟨hbooks.step hstep, hordered.step hbooks hclear hstep⟩

end

/-! ### An item that overtakes -/

def exampleItem : Item Unit where
  functionId := "f"
  ns := none
  invocationId := "i"
  matched := ["o"]
  input := none
  output := none
  error := none
  caller := none
  metadata := none
  observeDepth := 0
  traceparent := none
  baggage := none
  rest := ()
  mask := { input := true, output := true, error := true, caller := true, metadata := true }
  emitted := false
  seq := 0

def exampleWire : Wire Unit where
  json := fun _ => 100
  reread := some

def exampleLimits : Limits where
  maxItems := 8
  maxBytes := 10000
  batchItems := 4
  frameBytes := 5000

def exampleStep (s : State Unit) (a : Act Unit) : Option (State Unit × Unit) :=
  (s.step exampleWire exampleLimits a).map (·, ())

end Iii.Reporter
