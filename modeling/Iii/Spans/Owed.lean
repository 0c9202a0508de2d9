import Iii.Spans.Indexed

/-! What the cache owes the archive, and how it is settled.

A final is owed from the time it is stored until the archive has it, a newer record replaces it, or it is reported as
dropped. `Loses` says of an operation that it reports exactly the rest of what leaves. -/
namespace Iii.Spans
open HotCache

def HotCache.owed (c : HotCache) : Finset Nat := c.dirty ∪ c.evictedInFlight

def ids (c : HotCache) (seq : Nat) : Option (String × String) := (status c.slots seq).map Prod.snd

/-- A number that has been given out stands for its span only. -/
def Keeps (c c' : HotCache) : Prop :=
  c.nextSeq ≤ c'.nextSeq ∧ ∀ seq < c.nextSeq, ∀ key, ids c' seq = some key → ids c seq = some key

/-- `n` is the number of records that leave without an excuse. -/
structure Loses (excused : Finset Nat) (c c' : HotCache) (n : Nat) : Prop where
  indexed : Indexed c'
  keeps : Keeps c c'
  owed : c'.owed ⊆ c.owed
  count : (c'.owed \ excused).card + n = (c.owed \ excused).card

section
variable {e : Finset Nat} {c c' c'' : HotCache} {n m seq : Nat} {slot : Slot}

theorem Keeps.refl : Keeps c c := ⟨le_rfl, fun _ _ _ => id⟩

theorem Keeps.trans (h : Keeps c c') (h' : Keeps c' c'') : Keeps c c'' :=
  ⟨h.1.trans h'.1, fun seq hseq key hkey => h.2 seq hseq key (h'.2 seq (hseq.trans_le h.1) key hkey)⟩

/-- All that leaves is excused. -/
theorem Loses.excused (h : Indexed c') (hk : Keeps c c') (howed : c'.owed ⊆ c.owed)
    (he : ∀ x ∈ c.owed, x ∉ c'.owed → x ∈ e) : Loses e c c' 0 := by
  have : c'.owed \ e = c.owed \ e := by grind
  exact ⟨h, hk, howed, by rw [this, Nat.add_zero]⟩

theorem Loses.refl (h : Indexed c) : Loses e c c 0 :=
  .excused h .refl subset_rfl fun _ hx hx' => absurd hx hx'

theorem Loses.trans (h : Loses e c c' n) (h' : Loses e c' c'' m) : Loses e c c'' (n + m) :=
  ⟨h'.indexed, h.keeps.trans h'.keeps, h'.owed.trans h.owed,
    by rw [← h.count, ← h'.count, Nat.add_comm n, Nat.add_assoc]⟩

/-- One record, which may be owed. -/
theorem Loses.out (seq : Nat) (h : Indexed c') (hk : Keeps c c') (hmem : ∀ x, x ∈ c'.owed → x ∈ c.owed)
    (hother : ∀ x, x ≠ seq → x ∈ c.owed → x ∈ c'.owed)
    (hn : n = if seq ∈ c.owed ∧ seq ∉ c'.owed ∧ seq ∉ e then 1 else 0) : Loses e c c' n := by
  refine ⟨h, hk, hmem, ?_⟩
  rw [hn]
  split
  · have : c'.owed \ e = (c.owed \ e).erase seq := by grind
    rw [this, Finset.card_erase_add_one (by grind)]
  · have : c'.owed \ e = c.owed \ e := by grind
    rw [this, Nat.add_zero]

/-- A loop that settles one record after the other. -/
theorem Loses.foldl {f : HotCache × Nat → Nat → HotCache × Nat} {P : HotCache → Prop}
    (hstep : ∀ r a, Indexed r.1 → P r.1 → P (f r a).1 ∧ ∃ k, (f r a).2 = r.2 + k ∧ Loses e r.1 (f r a).1 k) :
    ∀ (l : List Nat) (r : HotCache × Nat), Indexed r.1 → P r.1 →
      P (l.foldl f r).1 ∧ ∃ k, (l.foldl f r).2 = r.2 + k ∧ Loses e r.1 (l.foldl f r).1 k
  | [], r, h, hP => ⟨hP, 0, rfl, .refl h⟩
  | a :: l, r, h, hP => by
    obtain ⟨hP', k, hk, hl⟩ := hstep r a h hP
    obtain ⟨hP'', k', hk', hl'⟩ := Loses.foldl hstep l (f r a) hl.indexed hP'
    exact ⟨hP'', k + k', by rw [List.foldl_cons, hk', hk, Nat.add_assoc], hl.trans hl'⟩

/-- The sets of the writer may change as long as they say what they say. -/
theorem Indexed.sets (h : Indexed c) {d i e : Finset Nat} (hd : ∀ x ∈ d, (status c.slots x).map Prod.fst = some false)
    (hi : ∀ x ∈ i, x ∈ d) (he : e ⊆ c.evictedInFlight) :
    Indexed { c with dirty := d, inFlight := i, evictedInFlight := e } := by
  obtain ⟨h1, h2, h3, h4, h5, h6, h7, h8, h9, h10, h11, h12⟩ := h
  constructor <;> first | assumption | exact fun x hx => h7 x (he hx)

theorem Indexed.evicted_none (h : Indexed c) (seq : Nat) (hseq : seq ∈ c.evictedInFlight) : c.slots seq = none :=
  status_eq_none.mp (h.evicted seq hseq).2

theorem Indexed.notDirty (h : Indexed c) (seq : Nat) (hseq : seq ∈ c.evictedInFlight) : seq ∉ c.dirty := fun hd => by
  have := h.dirty seq hd
  simp [(h.evicted seq hseq).2] at this

theorem evict_frame (c : HotCache) (seq : Nat) (slot : Slot) :
    (c.evict seq slot).1.slots = Function.update c.slots seq none ∧ (c.evict seq slot).1.nextSeq = c.nextSeq ∧
      ∀ key, c.pending key = none → (c.evict seq slot).1.pending key = none := by
  have hp : ∀ key, c.pending key = none → (c.unindex seq slot).pending key = none := by
    simp only [unindex]
    grind [Function.update_apply]
  unfold evict detach
  split <;> split <;> exact ⟨rfl, rfl, hp⟩

/-- One turn of the eviction loop. -/
theorem evict_loses (h : Indexed c) (hslot : c.slots seq = some slot) (hfirst : ∀ x, x < seq → c.slots x = none)
    (he : slot.superseded = true ↔ seq ∈ e) : Loses e c (c.evict seq slot).1 (c.evict seq slot).2 := by
  have hd := h.detach hslot fun _ => hfirst
  have hnot : seq ∉ c.evictedInFlight := fun hseq => by simp [h.evicted_none seq hseq] at hslot
  have hindexed : Indexed (c.evict seq slot).1 := by
    unfold evict
    split
    · exact hd.sets hd.dirty hd.claimed (Finset.erase_subset _ _)
    · exact hd
  obtain ⟨hslots, hnext, -⟩ := evict_frame c seq slot
  have hk : Keeps c (c.evict seq slot).1 := ⟨hnext.ge, fun x _ => by
    rw [ids, hslots, status_update]
    grind [Function.update_apply, ids]⟩
  refine .out seq hindexed hk ?_ ?_ ?_ <;>
    simp only [evict, detach, unindex, owed] <;> grind

theorem settleDeferred_loses (r : HotCache × Nat) (h : Indexed r.1) (he : seq ∈ e → seq ∉ r.1.evictedInFlight) :
    ∃ k, (settleDeferred r seq).2 = r.2 + k ∧ Loses e r.1 (settleDeferred r seq).1 k := by
  have hi : Indexed (settleDeferred r seq).1 :=
    h.sets h.dirty (fun x hx => h.claimed x (Finset.mem_of_mem_erase hx)) (Finset.erase_subset _ _)
  have hdirty := h.notDirty seq
  refine ⟨_, rfl, .out seq hi .refl ?_ ?_ ?_⟩ <;>
    simp only [settleDeferred, owed] <;> grind

theorem foldl_settleDurable (seqs : List Nat) (c : HotCache) : seqs.foldl settleDurable c =
    { c with
      dirty := c.dirty \ (seqs.toFinset ∩ c.inFlight)
      inFlight := c.inFlight \ seqs.toFinset
      evictedInFlight := c.evictedInFlight \ seqs.toFinset } := by
  induction seqs generalizing c with
  | nil => simp
  | cons seq rest ih =>
    rw [List.foldl_cons, ih]
    simp only [settleDurable, HotCache.mk.injEq, true_and, and_true, List.toFinset_cons]
    refine ⟨?_, ?_, ?_⟩ <;> ext x <;> grind

/-- Records that are settled without a report. -/
theorem settled_loses (h : Indexed c) {d t : Finset Nat} (hd : d ⊆ t) (ht : t ⊆ e) : Loses e c
    { c with dirty := c.dirty \ d, inFlight := c.inFlight \ t, evictedInFlight := c.evictedInFlight \ t } 0 := by
  refine .excused (h.sets (fun x hx => h.dirty x (Finset.mem_sdiff.mp hx).1) (fun x hx => ?_) Finset.sdiff_subset) .refl
    (Finset.union_subset_union Finset.sdiff_subset Finset.sdiff_subset) ?_
  · have := h.claimed x
    grind
  · simp only [owed]
    grind

theorem Indexed.slots (h : Indexed c) {slots : Slots} (hs : status slots = status c.slots)
    (hm : marked slots = marked c.slots) : Indexed { c with slots } := by
  obtain ⟨h1, h2, h3, h4, h5, h6, h7, h8, h9, h10, h11, h12⟩ := h
  constructor <;> first | assumption | (simpa only [hs, hm])

/-- The rejection of a record is not seen by the indexes. -/
theorem views_settleDropped (r : HotCache × Nat) (seq : Nat) : status (settleDropped r seq).1.slots = status r.1.slots ∧
    marked (settleDropped r seq).1.slots = marked r.1.slots := by
  simp only [settleDropped]
  split
  · rw [status_update, marked_update, Function.update_eq_self_iff, Function.update_eq_self_iff]
    cases h : r.1.slots seq <;> simp [status, marked, h]
  · exact ⟨rfl, rfl⟩

theorem settleDropped_loses (r : HotCache × Nat) (h : Indexed r.1)
    (he : seq ∈ r.1.inFlight ∨ seq ∈ r.1.evictedInFlight → (seq ∈ e ↔ marked r.1.slots seq = true)) :
    ∃ k, (settleDropped r seq).2 = r.2 + k ∧ Loses e r.1 (settleDropped r seq).1 k := by
  obtain ⟨hstatus, hmarked⟩ := views_settleDropped r seq
  have hslots := h.slots hstatus hmarked
  have hi : Indexed (settleDropped r seq).1 := by
    refine hslots.sets (i := r.1.inFlight.erase seq) (fun x hx => hslots.dirty x ?_) (fun x hx => ?_)
      (Finset.erase_subset seq _)
    · dsimp only at hx ⊢
      split at hx <;> grind
    · have := h.claimed x
      split <;> grind
  have hdirty := h.notDirty seq
  have hc := h.claimed seq
  have hm : marked r.1.slots seq = (r.1.slots seq).any (·.superseded) := rfl
  have hnone := h.evicted_none seq
  refine ⟨_, rfl, .out seq hi ⟨le_rfl, by simp [ids, hstatus]⟩ ?_ ?_ ?_⟩ <;>
    clear hi hslots hstatus hmarked <;>
    simp only [settleDropped, owed] <;> grind

/-- The oldest slots have left, and the limits hold or nothing is left. -/
structure Evicted (full : HotCache → Prop) (c c' : HotCache) : Prop where
  next : c'.nextSeq = c.nextSeq
  cut : ∃ cut, ∀ x, c'.slots x = if x < cut then none else c.slots x
  untracked : ∀ key, c.pending key = none → c'.pending key = none
  room : ¬full c' ∨ ∀ x, c'.slots x = none

theorem evictLoop_spec (full : HotCache → Prop) [DecidablePred full] : ∀ (m k : Nat) (c : HotCache), Indexed c →
    k + m = c.nextSeq → (∀ x, x < k → c.slots x = none) →
    (∀ x slot, c.slots x = some slot → (slot.superseded = true ↔ x ∈ e)) →
    Loses e c (evictLoop full (List.range' k m) c).1 (evictLoop full (List.range' k m) c).2 ∧
      Evicted full c (evictLoop full (List.range' k m) c).1
  | 0, k, c, h, hk, hfirst, _ => by
    refine ⟨.refl h, rfl, ⟨0, fun x => by simp [evictLoop]⟩, fun _ => id, .inr fun x => ?_⟩
    by_contra hx
    exact hx (hfirst x (by have := h.below x (status_eq_none.not.mpr hx); omega))
  | m + 1, k, c, h, hk, hfirst, he => by
    rw [List.range'_succ]
    unfold evictLoop
    cases hslot : c.slots k with
    | none =>
      refine evictLoop_spec full m (k + 1) c h (by omega) (fun x hx => ?_) he
      rcases Nat.lt_succ_iff_lt_or_eq.mp hx with hx | rfl
      · exact hfirst x hx
      · exact hslot
    | some slot =>
      dsimp only
      split
      · have hev := evict_loses h hslot hfirst (he k slot hslot)
        obtain ⟨hslots, hnext', hp'⟩ := evict_frame c k slot
        have hupdate : ∀ x, (c.evict k slot).1.slots x = if x = k then none else c.slots x := fun x => by
          rw [hslots, Function.update_apply]
        obtain ⟨hl, hnext, ⟨cut, hcut⟩, hp, hroom⟩ := evictLoop_spec full m (k + 1) (c.evict k slot).1 hev.indexed
          (by omega) (fun x hx => by rw [hupdate]; grind) fun x slot' hs => he x slot' (by rw [hupdate] at hs; grind)
        exact ⟨hev.trans hl, hnext.trans hnext', ⟨max cut (k + 1), fun x => by rw [hcut, hupdate]; grind⟩,
          fun key hkey => hp key (hp' key hkey), hroom⟩
      · rename_i hfull
        exact ⟨.refl h, rfl, ⟨k, fun x => by grind⟩, fun _ => id, .inl hfull⟩

end

end Iii.Spans
