import Iii.Lib.Multimap
import Mathlib.Data.Finset.Card

/-! The hot cache of the span store (`observability/otel.rs`) and its operations.

Spans are kept under a sequence number that only grows, so the order of the numbers is the order of arrival. A live
snapshot is overwritten in place by its final span. Finals the archive has not acknowledged are dirty; the writer claims
some of them for a batch and settles each, and one that is evicted in between is settled like the others. -/
namespace Iii.Spans
open Lib

/-- What the cache reads of a span. -/
structure StoredSpan where
  traceId : String
  spanId : String
  startTimeUnixNano : Nat
  pending : Bool

def StoredSpan.key (span : StoredSpan) : String × String := (span.traceId, span.spanId)

structure Slot where
  bytes : Nat
  span : StoredSpan
  archiveRejected : Bool
  superseded : Bool

abbrev Slots := Nat → Option Slot

structure HotCache where
  slots : Slots
  nextSeq : Nat
  byTrace : Multimap String Nat
  pending : String × String → Option Nat
  dirty : Finset Nat
  inFlight : Finset Nat
  evictedInFlight : Finset Nat
  finals : String × String → Option Nat
  hotBytes : Nat

/-- `u64::saturating_add`. -/
def saturatingAdd (a b : Nat) : Nat := min (a + b) 18446744073709551615

namespace HotCache

def empty : HotCache where
  slots := fun _ => none
  nextSeq := 0
  byTrace := fun _ => none
  pending := fun _ => none
  dirty := ∅
  inFlight := ∅
  evictedInFlight := ∅
  finals := fun _ => none
  hotBytes := 0

/-- `slots.len()`. -/
def len (c : HotCache) : Nat := ((Finset.range c.nextSeq).filter fun seq => (c.slots seq).isSome).card

/-- Marks the slot of the final that was on record, unless that is `seq` itself. -/
def markPrevious (slots : Slots) (seq : Nat) : Option Nat → Slots
  | none => slots
  | some previous =>
    if previous ≠ seq then
      Function.update slots previous ((slots previous).map fun slot => { slot with superseded := true })
    else slots

/-- `seq` is now the newest final of its span. -/
def recordFinal (c : HotCache) (key : String × String) (seq : Nat) : HotCache :=
  { c with
    finals := Function.update c.finals key (some seq)
    slots := markPrevious c.slots seq (c.finals key) }

/-- The indexes of `push`, before the slot is there. -/
def enter (c : HotCache) (span : StoredSpan) (pending : Bool) : HotCache :=
  let c' := { c with
    nextSeq := c.nextSeq + 1
    byTrace := c.byTrace.add span.traceId c.nextSeq }
  if pending then { c' with pending := Function.update c.pending span.key (some c.nextSeq) }
  else { c' with dirty := insert c.nextSeq c.dirty }.recordFinal span.key c.nextSeq

def push (c : HotCache) (bytes : Nat) (span : StoredSpan) (pending : Bool) : HotCache :=
  let c' := c.enter span pending
  { c' with
    hotBytes := saturatingAdd c.hotBytes bytes
    slots := Function.update c'.slots c.nextSeq (some ⟨bytes, span, false, false⟩) }

/-- The final takes the slot of its snapshot. -/
def overwrite (c : HotCache) (seq : Nat) (slot : Slot) (bytes : Nat) (span : StoredSpan) : HotCache :=
  { c with
    hotBytes := saturatingAdd (c.hotBytes - slot.bytes) bytes
    slots := Function.update c.slots seq (some { slot with bytes, span, archiveRejected := false })
    dirty := insert seq c.dirty }.recordFinal span.key seq

/-- `false` hands the span back. The entry in `pending` is gone either way. -/
def replacePending (c : HotCache) (bytes : Nat) (span : StoredSpan) : HotCache × Bool :=
  match c.pending span.key with
  | none => (c, false)
  | some seq =>
    let c' := { c with pending := Function.update c.pending span.key none }
    match c.slots seq with
    | none => (c', false)
    | some slot => (c'.overwrite seq slot bytes span, true)

/-- The indexes of `detach`; the slot is out of the cache already. -/
def unindex (c : HotCache) (seq : Nat) (slot : Slot) : HotCache :=
  let key := slot.span.key
  { c with
    hotBytes := c.hotBytes - slot.bytes
    byTrace := (c.byTrace.take slot.span.traceId seq).dropEmpty slot.span.traceId
    pending := if slot.span.pending ∧ c.pending key = some seq then Function.update c.pending key none else c.pending
    finals := if ¬slot.span.pending ∧ c.finals key = some seq then Function.update c.finals key none else c.finals }

def detach (c : HotCache) (seq : Nat) (slot : Slot) : HotCache × Bool :=
  let c' := { c.unindex seq slot with dirty := c.dirty.erase seq }
  if seq ∈ c.dirty ∧ seq ∈ c.inFlight then
    ({ c' with inFlight := c.inFlight.erase seq, evictedInFlight := insert seq c.evictedInFlight }, false)
  else (c', decide (seq ∈ c.dirty))

/-- `slots.remove(&seq)`, and the indexes. -/
def remove (c : HotCache) (seq : Nat) : HotCache :=
  match c.slots seq with
  | none => c
  | some slot => ({ c with slots := Function.update c.slots seq none }.detach seq slot).1

/-- The limits of one call. `watermark` is the byte target under pressure, the product of `maxBytes` and a ratio of at
most 0.95. -/
structure Limits where
  maxSpans : Nat
  maxBytes : Nat
  watermark : Nat
  spans_pos : 0 < maxSpans
  watermark_le : watermark ≤ maxBytes

def Limits.target (l : Limits) (c : HotCache) (incomingBytes : Nat) : Nat :=
  if 0 < l.maxBytes ∧ l.maxBytes < saturatingAdd c.hotBytes incomingBytes then l.watermark else l.maxBytes

abbrev Limits.Over (l : Limits) (incomingSpans incomingBytes target : Nat) (c : HotCache) : Prop :=
  l.maxSpans < c.len + incomingSpans ∨ 0 < l.maxBytes ∧ target < saturatingAdd c.hotBytes incomingBytes

/-- One turn of the eviction loop: the cache, and whether a span is lost. -/
def evict (c : HotCache) (seq : Nat) (slot : Slot) : HotCache × Nat :=
  let r := { c with slots := Function.update c.slots seq none }.detach seq slot
  if slot.superseded then ({ r.1 with evictedInFlight := r.1.evictedInFlight.erase seq }, 0)
  else (r.1, if r.2 then 1 else 0)

/-- The eviction loop, over the sequence numbers in order: `pop_first` takes the lowest that has a slot. -/
def evictLoop (full : HotCache → Prop) [DecidablePred full] : List Nat → HotCache → HotCache × Nat
  | [], c => (c, 0)
  | seq :: rest, c =>
    match c.slots seq with
    | none => evictLoop full rest c
    | some slot =>
      if full c then
        let r := c.evict seq slot
        let r' := evictLoop full rest r.1
        (r'.1, r.2 + r'.2)
      else (c, 0)

def evictFor (c : HotCache) (l : Limits) (incomingSpans incomingBytes : Nat) : HotCache × Nat :=
  evictLoop (l.Over incomingSpans incomingBytes (l.target c incomingBytes)) (List.range c.nextSeq) c

/-- One span of `insert`: a final takes the slot of its snapshot, else there is made room for the span. -/
def insertSpan (c : HotCache) (l : Limits) (bytes : Nat) (span : StoredSpan) : HotCache × Nat :=
  let r := if span.pending then (c, false) else c.replacePending bytes span
  if r.2 then (r.1, 0)
  else
    let e := r.1.evictFor l 1 bytes
    (e.1.push bytes span span.pending, e.2)

/-- Every span goes; the numbers keep counting. -/
def clear (c : HotCache) : HotCache := { empty with nextSeq := c.nextSeq }

/-- The write section of `begin_archive_batch`, on what was selected under the read lock before. -/
def claim (c : HotCache) (batch : List Nat) : HotCache :=
  { c with inFlight := c.inFlight ∪ batch.toFinset ∩ c.dirty }

def settleDurable (c : HotCache) (seq : Nat) : HotCache :=
  { c with
    dirty := if seq ∈ c.inFlight then c.dirty.erase seq else c.dirty
    inFlight := c.inFlight.erase seq
    evictedInFlight := c.evictedInFlight.erase seq }

/-- A claimed record that a newer one replaces is not lost; one that is still there is not to be queued again. -/
def settleDropped (r : HotCache × Nat) (seq : Nat) : HotCache × Nat :=
  let c := r.1
  let claimed := seq ∈ c.inFlight
  let superseded := claimed ∧ (c.slots seq).any (·.superseded)
  let evicted := seq ∈ c.evictedInFlight
  ({ c with
      inFlight := c.inFlight.erase seq
      evictedInFlight := c.evictedInFlight.erase seq
      dirty := if superseded ∨ claimed ∧ ¬evicted then c.dirty.erase seq else c.dirty
      slots := if claimed then
          Function.update c.slots seq ((c.slots seq).map fun slot => { slot with archiveRejected := true })
        else c.slots },
    r.2 + if ¬superseded ∧ (evicted ∨ claimed ∧ seq ∈ c.dirty) then 1 else 0)

def settleDeferred (r : HotCache × Nat) (seq : Nat) : HotCache × Nat :=
  ({ r.1 with inFlight := r.1.inFlight.erase seq, evictedInFlight := r.1.evictedInFlight.erase seq },
    r.2 + if seq ∈ r.1.evictedInFlight then 1 else 0)

/-- Settles a batch, and says how many spans are lost. -/
def finishArchiveBatch (c : HotCache) (durable dropped deferred : List Nat) : HotCache × Nat :=
  deferred.foldl settleDeferred (dropped.foldl settleDropped (durable.foldl settleDurable c, 0))

def markDurable (c : HotCache) (seqs : List Nat) : HotCache :=
  { c with
    dirty := c.dirty \ seqs.toFinset
    inFlight := c.inFlight \ seqs.toFinset
    evictedInFlight := c.evictedInFlight \ seqs.toFinset }

def discardPending (c : HotCache) (key : String × String) : HotCache :=
  match c.pending key with
  | none => c
  | some seq => c.remove seq

/-- The tracked snapshots from before the cutoff. -/
def expired (c : HotCache) (cutoff : Nat) : List Nat :=
  (List.range c.nextSeq).filter fun seq => (c.slots seq).any fun slot =>
    c.pending slot.span.key = some seq ∧ slot.span.pending ∧ slot.span.startTimeUnixNano < cutoff

def expirePending (c : HotCache) (cutoff : Nat) : HotCache := (c.expired cutoff).foldl remove c

def markAllDirty (c : HotCache) : HotCache :=
  { c with dirty := c.dirty ∪ (Finset.range c.nextSeq).filter fun seq =>
      (c.slots seq).any fun slot => !slot.span.pending && !slot.archiveRejected }

end HotCache

/-- What the store does with its cache under one lock. The limits may be retuned at any time. -/
inductive Command
  | insert (limits : HotCache.Limits) (bytes : Nat) (span : StoredSpan)
  | shrink (limits : HotCache.Limits)
  | clear
  | claim (batch : List Nat)
  | finish (durable dropped deferred : List Nat)
  | markDurable (seqs : List Nat)
  | discardPending (key : String × String)
  | expirePending (cutoff : Nat)
  | markAllDirty

/-- The cache after a command, and the number of spans reported as dropped. -/
def HotCache.next (c : HotCache) : Command → HotCache × Nat
  | .insert limits bytes span => c.insertSpan limits bytes span
  | .shrink limits => c.evictFor limits 0 0
  | .clear => (c.clear, 0)
  | .claim batch => (c.claim batch, 0)
  | .finish durable dropped deferred => c.finishArchiveBatch durable dropped deferred
  | .markDurable seqs => (c.markDurable seqs, 0)
  | .discardPending key => (c.discardPending key, 0)
  | .expirePending cutoff => (c.expirePending cutoff, 0)
  | .markAllDirty => (c.markAllDirty, 0)

end Iii.Spans
