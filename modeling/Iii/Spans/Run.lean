import Iii.Spans.Owed

/-! Runs of the cache: what every command keeps and reports. -/
namespace Iii.Spans
open HotCache

/-- The records that a newer one of the same span replaces. -/
def HotCache.superseded (c : HotCache) : Finset Nat := (Finset.range c.nextSeq).filter fun seq => marked c.slots seq

/-- What may leave unreported. -/
def Command.excused (c : HotCache) : Command → Finset Nat
  | .finish durable _ _ => durable.toFinset ∪ c.superseded
  | .markDurable seqs => seqs.toFinset
  | .clear => c.owed
  | _ => c.superseded

/-- The cache after the commands, in the order of its lock. -/
def HotCache.after (c : HotCache) (commands : List Command) : HotCache :=
  commands.foldl (fun c command => (c.next command).1) c

def run (commands : List Command) : HotCache := empty.after commands

section
variable {e : Finset Nat} {c c' : HotCache} {seq bytes : Nat} {span : StoredSpan} {slot : Slot} {l : Limits}

theorem Indexed.of_mem_owed (h : Indexed c) (hseq : seq ∈ c.owed) :
    seq < c.nextSeq ∧ ∀ key, status c.slots seq ≠ some (true, key) := by
  rcases Finset.mem_union.mp hseq with hseq | hseq
  · have hd := h.dirty seq hseq
    exact ⟨h.below seq fun hnone => by simp [hnone] at hd, fun key hs => by simp [hs] at hd⟩
  · have hv := h.evicted seq hseq
    exact ⟨hv.1, by simp [hv.2]⟩

theorem evictFor_spec (h : Indexed c) (l : Limits) (spans bytes : Nat) :
    Loses c.superseded c (c.evictFor l spans bytes).1 (c.evictFor l spans bytes).2 ∧
      Evicted (l.Over spans bytes (l.target c bytes)) c (c.evictFor l spans bytes).1 := by
  have := evictLoop_spec (e := c.superseded) (l.Over spans bytes (l.target c bytes)) c.nextSeq 0 c h (by omega) (by simp)
    fun x slot hs => by rw [superseded, Finset.mem_filter]; simp [h.lt hs, marked, hs]
  rwa [← List.range_eq_range'] at this

/-- A final takes the slot of its snapshot, or the span lands after the eviction. -/
theorem insertSpan_cases (h : Indexed c) (l : Limits) (bytes : Nat) (span : StoredSpan) :
    (∃ seq slot, span.pending = false ∧ c.pending span.key = some seq ∧ c.slots seq = some slot ∧
      c.insertSpan l bytes span = (c.replaced seq slot bytes span, 0)) ∨
    (span.pending = false → c.pending span.key = none) ∧ c.insertSpan l bytes span =
      ((c.evictFor l 1 bytes).1.push bytes span span.pending, (c.evictFor l 1 bytes).2) := by
  cases hp : span.pending with
  | true => exact .inr ⟨by simp, by simp [insertSpan, hp]⟩
  | false =>
    cases hkey : c.pending span.key with
    | none => exact .inr ⟨fun _ => rfl, by simp [insertSpan, hp, replacePending, hkey]⟩
    | some seq =>
      have hlive := h.live _ _ hkey
      cases hslot : c.slots seq with
      | none => simp [status, hslot] at hlive
      | some slot => exact .inl ⟨seq, slot, rfl, rfl, hslot, by simp [insertSpan, hp, replacePending, hkey, hslot]⟩

theorem push_owed :
    (c.push bytes span span.pending).owed = if span.pending then c.owed else insert c.nextSeq c.owed := by
  cases hp : span.pending <;> simp [push, enter, recordFinal, owed, Finset.insert_union]

/-- The cache keeps its indexes, and the number says how many records left without an excuse. -/
structure Reports (e : Finset Nat) (c : HotCache) (r : HotCache × Nat) : Prop where
  indexed : Indexed r.1
  keeps : Keeps c r.1
  count : r.2 = ((c.owed \ r.1.owed) \ e).card

theorem Loses.reports {r : HotCache × Nat} (h : Loses e c r.1 r.2) : Reports e c r := by
  refine ⟨h.indexed, h.keeps, ?_⟩
  have hset : (c.owed \ r.1.owed) \ e = (c.owed \ e) \ (r.1.owed \ e) := by grind
  rw [hset, Finset.card_sdiff_of_subset (Finset.sdiff_subset_sdiff h.owed subset_rfl), ← h.count,
    Nat.add_sub_cancel_left]

/-- Nothing leaves. -/
theorem Reports.of_subset (h : Indexed c') (hk : Keeps c c') (howed : c.owed ⊆ c'.owed) : Reports e c (c', 0) :=
  ⟨h, hk, by rw [Finset.sdiff_eq_empty_iff_subset.mpr howed]; simp⟩

theorem status_push (pending : Bool) :
    status (c.push bytes span pending).slots =
      Function.update (status c.slots) c.nextSeq (some (span.pending, span.key)) := by
  cases pending <;> simp only [push, enter, recordFinal, Bool.false_eq_true, if_false, if_true, status_update,
    status_markPrevious, Option.map_some]

theorem push_keeps : Keeps c (c.push bytes span span.pending) := by
  refine ⟨by cases span.pending <;> exact Nat.le_succ _, fun x hx => ?_⟩
  rw [ids, status_push, Function.update_of_ne hx.ne]
  exact fun _ => id

theorem ids_replaced (h : Indexed c) (hkey : c.pending span.key = some seq) :
    ids (c.replaced seq slot bytes span) = ids c := by
  have hlive := h.live _ _ hkey
  funext x
  simp only [ids, overwrite, recordFinal, status_markPrevious, status_update]
  grind [Function.update_apply]

theorem insertSpan_reports (h : Indexed c) : Reports c.superseded c (c.insertSpan l bytes span) := by
  rcases insertSpan_cases h l bytes span with ⟨seq, slot, hp, hkey, hslot, heq⟩ | ⟨hlast, heq⟩ <;> rw [heq]
  · refine .of_subset (h.replaced hp hkey hslot) ⟨le_rfl, fun x _ => ?_⟩ fun x hx => ?_
    · rw [ids_replaced h hkey]
      exact fun _ => id
    rcases Finset.mem_union.mp hx with hx | hx <;> simp [owed, overwrite, recordFinal, hx]
  · obtain ⟨hl, hev⟩ := evictFor_spec h l 1 bytes
    refine ⟨hl.indexed.push fun hp => hev.untracked _ (hlast hp), hl.keeps.trans push_keeps, ?_⟩
    have hnew : c.nextSeq ∉ c.owed := fun hx => Nat.lt_irrefl _ (h.of_mem_owed hx).1
    dsimp only
    rw [hl.reports.count, push_owed, hev.next]
    congr 1
    ext x
    simp only [Finset.mem_sdiff]
    split <;> grind

/-- Snapshots leave, and nothing else does. -/
structure Drops (c c' : HotCache) : Prop where
  indexed : Indexed c'
  keeps : Keeps c c'
  owed : c.owed ⊆ c'.owed
  slots : ∀ x slot, c'.slots x = some slot → c.slots x = some slot

theorem Drops.refl (h : Indexed c) : Drops c c := ⟨h, .refl, subset_rfl, fun _ _ => id⟩

theorem remove_drops (h : Indexed c) (seq : Nat) (hp : ∀ slot, c.slots seq = some slot → slot.span.pending = true) :
    Drops c (c.remove seq) := by
  unfold remove
  cases hslot : c.slots seq with
  | none => exact .refl h
  | some slot =>
    have hpend := hp slot hslot
    have hout : seq ∉ c.owed := fun hx => (h.of_mem_owed hx).2 slot.span.key (by simp [status, hslot, hpend])
    refine ⟨h.detach hslot (by simp [hpend]), ?_, fun x hx => ?_, fun x slot' => ?_⟩ <;>
      dsimp only [detach, unindex, owed] at *
    · split <;> exact ⟨le_rfl, fun x _ => by rw [ids, status_update]; grind [Function.update_apply, ids]⟩
    · grind
    · split <;> grind [Function.update_apply]

theorem expire_drops (h : Indexed c) (seqs : List Nat)
    (hp : ∀ seq ∈ seqs, ∀ slot, c.slots seq = some slot → slot.span.pending = true) : Drops c (seqs.foldl remove c) :=
  List.foldlRecOn seqs _ (.refl h) fun _ hd x hx =>
    have hd' := remove_drops hd.indexed x fun slot hslot => hp x hx slot (hd.slots x slot hslot)
    ⟨hd'.indexed, hd.keeps.trans hd'.keeps, hd.owed.trans hd'.owed, fun y slot hy => hd.slots y slot (hd'.slots y slot hy)⟩

theorem finish_spec (h : Indexed c) (durable dropped deferred : List Nat) :
    Reports (durable.toFinset ∪ c.superseded) c (c.finishArchiveBatch durable dropped deferred) := by
  obtain ⟨e, he⟩ : ∃ e, e = durable.toFinset ∪ c.superseded := ⟨_, rfl⟩
  rw [← he]
  have hd : Loses e c (durable.foldl settleDurable c) 0 := by
    rw [foldl_settleDurable, he]
    exact settled_loses h Finset.inter_subset_left Finset.subset_union_left
  -- What is claimed or evicted is excused exactly if it is superseded, once the durable records are settled.
  let P := fun c' : HotCache => ∀ x, x ∈ c'.inFlight ∨ x ∈ c'.evictedInFlight → (x ∈ e ↔ marked c'.slots x = true)
  have hP : P (durable.foldl settleDurable c) := by
    rw [foldl_settleDurable]
    intro x hx
    have hlt : x < c.nextSeq := (h.of_mem_owed (by have := h.claimed x; simp only [owed]; grind)).1
    simp only [he, superseded, Finset.mem_union, Finset.mem_filter, Finset.mem_range]
    grind
  obtain ⟨hP', k, hk, hl⟩ := Loses.foldl (f := settleDropped) (P := P) (fun r a hr hPr => ⟨fun x hx => by
    rw [(views_settleDropped r a).2]
    exact hPr x (hx.imp Finset.mem_of_mem_erase Finset.mem_of_mem_erase), settleDropped_loses r hr (hPr a)⟩)
    dropped (durable.foldl settleDurable c, 0) hd.indexed hP
  obtain ⟨-, k', hk', hl'⟩ := Loses.foldl (f := settleDeferred) (P := fun c' => ∀ x ∈ c'.evictedInFlight, x ∉ e)
    (fun r a hr hPr => ⟨fun x hx => hPr x (Finset.mem_of_mem_erase hx), settleDeferred_loses r hr fun ha hx => hPr a hx ha⟩)
    deferred _ hl.indexed fun x hx hxe => by
      have := (hP' x (.inr hx)).mp hxe
      simp [marked, hl.indexed.evicted_none x hx] at this
  refine Loses.reports ?_
  rw [show (c.finishArchiveBatch durable dropped deferred).2 = 0 + k + k' by unfold finishArchiveBatch; rw [hk', hk]]
  exact (hd.trans hl).trans hl'

theorem next_spec (h : Indexed c) (command : Command) : Reports (command.excused c) c (c.next command) := by
  cases command with
  | insert l bytes span => exact insertSpan_reports h
  | shrink l => exact (evictFor_spec h l 0 0).1.reports
  | clear => exact ⟨.clear c, ⟨le_rfl, by simp [ids, status, next, clear, empty]⟩,
      by simp [Command.excused, next]⟩
  | claim batch =>
    refine .of_subset (h.sets h.dirty (fun x hx => ?_) subset_rfl) .refl subset_rfl
    have := h.claimed x
    grind
  | finish durable dropped deferred => exact finish_spec h durable dropped deferred
  | markDurable seqs => exact (settled_loses h subset_rfl subset_rfl).reports
  | discardPending key =>
    simp only [next, discardPending]
    cases hkey : c.pending key with
    | none => exact .of_subset h .refl subset_rfl
    | some seq =>
      have hd := remove_drops h seq fun slot hs => by
        have := h.live _ _ hkey
        rw [status, hs] at this
        exact congrArg Prod.fst (Option.some.inj this)
      exact .of_subset hd.indexed hd.keeps hd.owed
  | expirePending cutoff =>
    have hd := expire_drops h (c.expired cutoff) fun seq hseq slot hs => by
      simp only [expired, List.mem_filter, hs, Option.any_some, decide_eq_true_eq] at hseq
      exact hseq.2.2.1
    exact .of_subset hd.indexed hd.keeps hd.owed
  | markAllDirty =>
    refine .of_subset (h.sets (fun x hx => ?_) (fun x hx => Finset.mem_union_left _ (h.claimed x hx))
      subset_rfl) .refl (Finset.union_subset_union_left Finset.subset_union_left)
    rcases Finset.mem_union.mp hx with hx | hx
    · exact h.dirty x hx
    · cases hs : c.slots x <;> simp_all [status]

theorem after_spec (h : Indexed c) (commands : List Command) :
    Indexed (c.after commands) ∧ Keeps c (c.after commands) :=
  List.foldlRecOn (motive := fun c' => Indexed c' ∧ Keeps c c') commands _ ⟨h, .refl⟩ fun _ hc command _ =>
    ⟨(next_spec hc.1 command).indexed, hc.2.trans (next_spec hc.1 command).keeps⟩

end

theorem indexed_run (commands : List Command) : Indexed (run commands) := (after_spec (.clear .empty) commands).1

/-- What a command reports as dropped is what leaves the cache unacknowledged and not superseded, each record once. -/
theorem losses_reported (commands : List Command) (command : Command) :
    ((run commands).next command).2 = (((run commands).owed \ ((run commands).next command).1.owed) \
      command.excused (run commands)).card :=
  (next_spec (indexed_run commands) command).count

/-- A number stands for one span for good, also across a `clear`: what the writer settles late is the record it claimed or
nothing. -/
theorem numbers_stable (commands later : List Command) (seq : Nat) : (run commands).nextSeq ≤ seq ∨
    ∀ key, ids (run (commands ++ later)) seq = some key → ids (run commands) seq = some key := by
  have hk := (after_spec (indexed_run commands) later).2
  rw [show run (commands ++ later) = (run commands).after later from List.foldl_append]
  exact (Nat.lt_or_ge seq _).symm.imp_right (hk.2 seq)

/-- A record is marked as superseded exactly if a newer final of its span is in the cache, so none that is excused as such
is the last of its span. -/
theorem superseded_iff (commands : List Command) (seq : Nat) : marked (run commands).slots seq = true ↔
    ∃ key newer, status (run commands).slots seq = some (false, key) ∧ seq < newer ∧
      status (run commands).slots newer = some (false, key) := by
  have hi := indexed_run commands
  have hsuper := hi.superseded seq
  constructor
  · intro hm
    cases hs : status (run commands).slots seq with
    | none => simp [marked, status_eq_none.mp hs] at hm
    | some ids =>
      obtain ⟨hp, hne⟩ := (hsuper ids.1 ids.2 hs).mp hm
      have hst : status (run commands).slots seq = some (false, ids.2) := hp ▸ hs
      obtain ⟨final, hfinal⟩ := Option.ne_none_iff_exists'.mp (hi.recorded seq _ hst)
      have hle := hi.latest seq _ final hst hfinal
      exact ⟨_, final, hs ▸ hst, hle.lt_of_ne fun heq => hne (heq ▸ hfinal), hi.newest _ _ hfinal⟩
  · rintro ⟨key, newer, hs, hlt, hnew⟩
    exact (hsuper _ _ hs).mpr ⟨rfl, fun hfinal => absurd (hi.latest newer key seq hnew hfinal) (Nat.not_le.mpr hlt)⟩

theorem push_len (c : HotCache) (bytes : Nat) (span : StoredSpan) (pending : Bool) :
    (c.push bytes span pending).len = c.len + 1 := by
  have hnext : (c.push bytes span pending).nextSeq = c.nextSeq + 1 := by cases pending <;> rfl
  have hset : (Finset.range (c.nextSeq + 1)).filter (fun x => ((c.push bytes span pending).slots x).isSome) =
      insert c.nextSeq ((Finset.range c.nextSeq).filter fun x => (c.slots x).isSome) := by
    ext x
    cases pending <;> simp only [push, enter, recordFinal] <;> grind [Function.update_apply, markPrevious_apply]
  rw [len, hnext, hset, Finset.card_insert_of_notMem (by simp)]
  rfl

end Iii.Spans
