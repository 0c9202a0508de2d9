import Iii.Spans.Cache

/-! The indexes of the cache.

`Indexed` says what each index holds in terms of the slots, and every command keeps it. A final leaves the cache only
when no older slot is left, which is why the newest final of a span is always the one on record. -/
namespace Iii.Spans
open Lib

/-- Whether the span under a number is a snapshot, and its ids. -/
def status (slots : Slots) (seq : Nat) : Option (Bool × String × String) :=
  (slots seq).map fun slot => (slot.span.pending, slot.span.key)

def marked (slots : Slots) (seq : Nat) : Bool := (slots seq).any (·.superseded)

open HotCache

structure Indexed (c : HotCache) : Prop where
  below : ∀ seq, status c.slots seq ≠ none → seq < c.nextSeq
  traces : ∀ trace seq, seq ∈ c.byTrace.values trace ↔ (status c.slots seq).map (·.2.1) = some trace
  tidy : c.byTrace.Tidy
  live : ∀ key seq, c.pending key = some seq → status c.slots seq = some (true, key)
  dirty : ∀ seq ∈ c.dirty, (status c.slots seq).map Prod.fst = some false
  claimed : ∀ seq ∈ c.inFlight, seq ∈ c.dirty
  evicted : ∀ seq ∈ c.evictedInFlight, seq < c.nextSeq ∧ status c.slots seq = none
  newest : ∀ key seq, c.finals key = some seq → status c.slots seq = some (false, key)
  recorded : ∀ seq key, status c.slots seq = some (false, key) → c.finals key ≠ none
  latest : ∀ seq key final, status c.slots seq = some (false, key) → c.finals key = some final → seq ≤ final
  superseded : ∀ seq pending key, status c.slots seq = some (pending, key) →
    (marked c.slots seq = true ↔ pending = false ∧ c.finals key ≠ some seq)
  /-- A snapshot that is tracked is younger than the finals of its span. -/
  ordered : ∀ key seq final, c.pending key = some seq → c.finals key = some final → final < seq

theorem Indexed.clear (c : HotCache) : Indexed c.clear := by
  constructor <;> first | exact .empty | simp [HotCache.clear, HotCache.empty, status, Multimap.values]

section
variable {c : HotCache} {seq bytes : Nat} {span : StoredSpan} {slot : Slot}

theorem status_eq_none {slots : Slots} : status slots seq = none ↔ slots seq = none := by simp [status]

theorem Indexed.fresh (h : Indexed c) : c.slots c.nextSeq = none := by
  by_contra hs
  exact absurd (h.below _ (status_eq_none.not.mpr hs)) (Nat.lt_irrefl _)

theorem Indexed.lt (h : Indexed c) (hslot : c.slots seq = some slot) : seq < c.nextSeq :=
  h.below seq (by simp [status, hslot])

theorem markPrevious_apply (slots : Slots) (seq : Nat) (previous : Option Nat) (x : Nat) :
    markPrevious slots seq previous x =
      if previous = some x ∧ x ≠ seq then (slots x).map fun slot => { slot with superseded := true } else slots x := by
  cases previous with
  | none => simp [markPrevious]
  | some previous =>
    unfold markPrevious
    split <;> grind [Function.update_apply]

section Views
variable (slots : Slots) (previous : Option Nat)

theorem status_update (seq : Nat) (slot : Option Slot) :
    status (Function.update slots seq slot) =
      Function.update (status slots) seq (slot.map fun slot => (slot.span.pending, slot.span.key)) := by
  funext x
  by_cases hx : x = seq <;> simp [status, hx]

theorem marked_update (seq : Nat) (slot : Option Slot) :
    marked (Function.update slots seq slot) = Function.update (marked slots) seq (slot.any (·.superseded)) := by
  funext x
  by_cases hx : x = seq <;> simp [marked, hx]

theorem status_markPrevious (seq : Nat) : status (markPrevious slots seq previous) = status slots := by
  funext x
  unfold status
  rw [markPrevious_apply]
  split
  · cases slots x <;> rfl
  · rfl

theorem marked_markPrevious (seq : Nat) : marked (markPrevious slots seq previous) = fun x =>
    if previous = some x ∧ x ≠ seq then (status slots x).isSome else marked slots x := by
  funext x
  unfold marked status
  rw [markPrevious_apply]
  split <;> cases slots x <;> simp

end Views

theorem Indexed.push (h : Indexed c) (hlast : span.pending = false → c.pending span.key = none) :
    Indexed (c.push bytes span span.pending) := by
  have hfresh := status_eq_none.mpr h.fresh
  have htidy := h.tidy
  have htrace : span.key.1 = span.traceId := rfl
  obtain ⟨h1, h2, -, h3, h4, h5, h6, h7, h8, h9, h10, h11⟩ := h
  constructor
  case tidy => cases hp : span.pending <;> exact htidy.add _ _
  all_goals
    cases hp : span.pending <;>
      simp only [HotCache.push, enter, recordFinal, Bool.false_eq_true, if_false, if_true, status_update, marked_update,
        Option.map_some, Option.any_some, status_markPrevious, marked_markPrevious] <;>
      grind -ring -linarith [Function.update_apply, Multimap.mem_add]

/-- The cache after a final has taken the slot of its snapshot. -/
abbrev HotCache.replaced (c : HotCache) (seq : Nat) (slot : Slot) (bytes : Nat) (span : StoredSpan) :=
  { c with pending := Function.update c.pending span.key none }.overwrite seq slot bytes span

theorem Indexed.replaced (h : Indexed c) (hp : span.pending = false) (hseq : c.pending span.key = some seq)
    (hslot : c.slots seq = some slot) : Indexed (c.replaced seq slot bytes span) := by
  have hlive := h.live _ _ hseq
  have hkey : slot.span.key = span.key := by
    rw [status, hslot] at hlive
    exact congrArg Prod.snd (Option.some.inj hlive)
  have htidy := h.tidy
  have hmark : marked c.slots seq = slot.superseded := by simp [marked, hslot]
  have habove : ∀ x, status c.slots x = some (false, span.key) → x < seq := fun x hx => by
    obtain ⟨final, hfinal⟩ := Option.ne_none_iff_exists'.mp (h.recorded x _ hx)
    exact (h.latest x _ final hx hfinal).trans_lt (h.ordered _ _ _ hseq hfinal)
  obtain ⟨h1, h2, -, h3, h4, h5, h6, h7, h8, h9, h10, h11⟩ := h
  constructor
  case tidy => exact htidy
  all_goals
    clear hslot
    simp only [overwrite, recordFinal, status_update, marked_update, Option.map_some,
      Option.any_some, status_markPrevious, marked_markPrevious]
    grind -ring -linarith [Function.update_apply]

theorem of_forget {κ : Type} [DecidableEq κ] {f : κ → Option Nat} {k k' : κ} {p : Prop} [Decidable p]
    (h : (if p then Function.update f k none else f) k' = some seq) : f k' = some seq := by
  split at h
  · rw [Function.update_apply] at h
    split at h
    · cases h
    · exact h
  · exact h

/-- A final leaves when no older slot is left. -/
theorem Indexed.detach (h : Indexed c) (hslot : c.slots seq = some slot)
    (hfirst : slot.span.pending = false → ∀ x, x < seq → c.slots x = none) :
    Indexed (({ c with slots := Function.update c.slots seq none } : HotCache).detach seq slot).1 := by
  have hlt := h.lt hslot
  have hstatus : status c.slots seq = some (slot.span.pending, slot.span.key) := by simp [status, hslot]
  have htidy := h.tidy
  have htrace : slot.span.key.1 = slot.span.traceId := rfl
  replace hfirst : slot.span.pending = false → ∀ x, x < seq → status c.slots x = none := fun hp x hx =>
    status_eq_none.mpr (hfirst hp x hx)
  obtain ⟨h1, h2, -, h3, h4, h5, h6, h7, h8, h9, h10, h11⟩ := h
  unfold HotCache.detach
  split
  all_goals
    constructor
    case tidy => exact htidy.takeOut _ _
    case ordered => exact fun key x final hx hfinal => h11 key x final (of_forget hx) (of_forget hfinal)
    all_goals
      clear hslot
      simp only [unindex, status_update, marked_update, Option.map_none, Option.any_none]
      grind -ring -linarith [Function.update_apply, Multimap.mem_take, Multimap.values_dropEmpty]

end

end Iii.Spans
