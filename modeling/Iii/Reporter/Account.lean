import Iii.Reporter.Merge
import Mathlib.Algebra.BigOperators.Group.Multiset.Basic
import Mathlib.Tactic.Abel

/-! The accounts of the buffer: where each `seq` is, what `count` and `bytes` say, and where a drop
was counted. Every operation keeps them, in any order. -/
namespace Iii.Reporter
open Lib

variable {B : Type} {s s' : State B} {hand hand' : Multiset (Item B)} {loose loose' : Multiset Nat}

def Flush.all (f : Flush B) : List (Item B) := f.taken ++ f.sendable ++ f.held ++ f.dropped

namespace State

/-- The items in `items`, in `parked` and in the running flush. -/
def buffered (s : State B) : List (Item B) := s.items ++ s.parked.flatMap (·.2) ++ s.flush.elim [] Flush.all

def bag (s : State B) : Multiset (Item B) := s.buffered

/-- The items that left, those not written yet last. -/
def sent (s : State B) : List (Item B) := s.written ++ s.outbox.flatMap (·.items)

/-- The `seq`s that a drop counter took. -/
def lost (s : State B) : List Nat := s.tally.filterMap (·.1)

def total (items : Multiset (Item B)) : Nat := (items.map Item.estimatedSize).sum

@[simp] theorem total_add (a b : Multiset (Item B)) : total (a + b) = total a + total b := by
  unfold total
  rw [Multiset.map_add, Multiset.sum_add]

theorem total_coe (items : List (Item B)) : total (items : Multiset (Item B)) = (items.map Item.estimatedSize).sum := by
  unfold total
  rw [Multiset.map_coe, Multiset.sum_coe]

/-- The accounts, while `hand` is counted but in no list, and the `seq`s `loose` are nowhere. -/
structure Books (hand : Multiset (Item B)) (loose : Multiset Nat) (s : State B) : Prop where
  count : s.count = Multiset.card (s.bag + hand)
  bytes : s.bytes = total (s.bag + hand)
  leased : s.inFlight = (s.outbox.map Frame.bytes).sum
  seqs : (s.bag + hand + s.sent).map Item.seq + loose + s.lost = List.range' 1 s.nextSeq
  counted : ∀ key, (Assoc.get? s.drops key).getD 0 + s.exported key = s.tally.countP (·.2 = key)
  exact : s.short = false
  keys : Assoc.Distinct s.parked

theorem Books.start : Books 0 0 (State.start : State B) where
  count := rfl
  bytes := rfl
  leased := rfl
  seqs := rfl
  counted := fun _ => rfl
  exact := rfl
  keys := List.nodup_nil

/-- What the accounts read apart from where the items are. -/
def ledger (s : State B) : (Nat × Nat × Nat × Nat × Bool) × List (Frame B) × List (Item B) ×
    List (Option Nat × DropKey) × List (DropKey × Nat) × (DropKey → Nat) :=
  ((s.count, s.bytes, s.inFlight, s.nextSeq, s.short), s.outbox, s.written, s.tally, s.drops, s.exported)

/-- Items move between the lists and the hand. -/
theorem Books.move (h : Books hand loose s) (hsame : s'.ledger = s.ledger) (hkeys : Assoc.Distinct s'.parked)
    (hbag : s'.bag + hand' = s.bag + hand) : Books hand' loose s' := by
  obtain ⟨⟨hcount, hbytes, hinFlight, hnext, hshort⟩, houtbox, hwritten, htally, hdrops, hexported⟩ :
      (s'.count = s.count ∧ s'.bytes = s.bytes ∧ s'.inFlight = s.inFlight ∧ s'.nextSeq = s.nextSeq ∧
        s'.short = s.short) ∧ s'.outbox = s.outbox ∧ s'.written = s.written ∧ s'.tally = s.tally ∧
        s'.drops = s.drops ∧ s'.exported = s.exported := by
    simpa [ledger] using hsame
  have hsent : s'.sent = s.sent := by
    unfold sent
    rw [hwritten, houtbox]
  have hlost : s'.lost = s.lost := by
    unfold lost
    rw [htally]
  constructor
  · rw [hcount, hbag, h.count]
  · rw [hbytes, hbag, h.bytes]
  · rw [hinFlight, houtbox, h.leased]
  · rw [hbag, hsent, hlost, hnext, h.seqs]
  · rw [hdrops, hexported, htally]
    exact h.counted
  · rw [hshort, h.exact]
  · exact hkeys

/-- Nothing of the accounts changes. -/
theorem Books.keep (h : Books hand loose s) (hsame : s'.ledger = s.ledger) (hitems : s'.items = s.items)
    (hparked : s'.parked = s.parked) (hflush : s'.flush = s.flush) : Books hand loose s' := by
  apply h.move hsame
  · rw [hparked]
    exact h.keys
  · unfold bag buffered
    rw [hitems, hparked, hflush]

/-! ### Drops -/

theorem get?_tallied (h : ∀ key, (Assoc.get? s.drops key).getD 0 + s.exported key = s.tally.countP (·.2 = key))
    (functionId : String) (reason : Reason) (seqs : List (Option Nat)) (key : DropKey) :
    (Assoc.get? (s.tallied functionId reason seqs).drops key).getD 0 + s.exported key =
      (s.tallied functionId reason seqs).tally.countP (·.2 = key) := by
  unfold tallied
  extract_lets into
  have hkey := h key
  simp only [Assoc.get?_insert, List.countP_append, List.countP_map]
  by_cases heq : into = key
  · subst heq
    have hall : seqs.countP ((fun d : Option Nat × DropKey => decide (d.2 = into)) ∘ fun seq => (seq, into)) =
        seqs.length := List.countP_eq_length.mpr fun a _ => by simp
    rw [if_pos rfl, hall, Option.getD_some]
    omega
  · have hnone : seqs.countP ((fun d : Option Nat × DropKey => decide (d.2 = key)) ∘ fun seq => (seq, into)) = 0 :=
      List.countP_eq_zero.mpr fun a _ => by simpa using heq
    rw [if_neg heq, hnone]
    omega

theorem lost_tallied (s : State B) (functionId : String) (reason : Reason) (seqs : List (Option Nat)) :
    (s.tallied functionId reason seqs).lost = seqs.filterMap id ++ s.lost := by
  unfold lost tallied
  simp only [List.filterMap_append, List.filterMap_map]
  rfl

theorem Books.tallied (functionId : String) (reason : Reason) (seqs : List (Option Nat))
    (h : Books hand (↑(seqs.filterMap id) + loose) s) :
    Books hand loose (s.tallied functionId reason seqs) where
  count := h.count
  bytes := h.bytes
  leased := h.leased
  seqs := by
    rw [lost_tallied, ← Multiset.coe_add, ← add_assoc, add_assoc _ loose, add_comm loose]
    exact h.seqs
  counted := get?_tallied h.counted functionId reason seqs
  exact := h.exact
  keys := h.keys

/-- A drop of an item that never got a `seq`. -/
theorem Books.tallied_none (functionId : String) (reason : Reason) (h : Books hand loose s) :
    Books hand loose (s.tallied functionId reason [none]) := by
  apply Books.tallied
  simpa using h

theorem Books.tallied_items (functionId : String) (reason : Reason) (items : List (Item B))
    (h : Books hand (↑(items.map Item.seq) + loose) s) :
    Books hand loose (s.tallied functionId reason (items.map (some ·.seq))) := by
  apply Books.tallied
  have heq : (items.map (some ·.seq) : List (Option Nat)).filterMap id = items.map Item.seq := by
    rw [List.filterMap_map, ← List.filterMap_eq_map]
    rfl
  rw [heq]
  exact h

theorem Books.dropItems (reason : Reason) (items : List (Item B))
    (h : Books hand (↑(items.map Item.seq) + loose) s) : Books hand loose (s.dropItems reason items) := by
  induction items generalizing s with
  | nil => simpa [State.dropItems] using h
  | cons item rest ih =>
    apply ih
    apply Books.tallied_items item.functionId reason [item]
    rw [← add_assoc, Multiset.coe_add]
    exact h

/-- Items in hand are no longer counted; the subtractions are exact. -/
theorem Books.less (items : List (Item B)) (h : Books ((items : Multiset (Item B)) + hand) loose s) :
    Books hand (↑(items.map Item.seq) + loose)
      (s.less items.length (items.map Item.estimatedSize).sum) := by
  have hcount := h.count
  have hbytes := h.bytes
  rw [Multiset.card_add, Multiset.card_add, Multiset.coe_card] at hcount
  rw [total_add, total_add, total_coe items] at hbytes
  constructor
  · show s.count - items.length = _
    rw [Multiset.card_add]
    show _ = Multiset.card s.bag + _
    omega
  · show s.bytes - _ = total (s.bag + hand)
    rw [total_add]
    omega
  · exact h.leased
  · show Multiset.map Item.seq (s.bag + hand + (s.sent : Multiset (Item B))) + _ + (s.lost : Multiset Nat) = List.range' 1 s.nextSeq
    rw [← h.seqs]
    simp only [Multiset.map_add, Multiset.map_coe]
    abel
  · exact h.counted
  · show (s.short || decide (s.count < _) || decide (s.bytes < _)) = false
    rw [h.exact, decide_eq_false (by omega), decide_eq_false (by omega)]
    rfl
  · exact h.keys

theorem Books.release (functionId : String) (items : List (Item B)) (h : Books ((items : Multiset (Item B)) + hand) loose s) :
    Books hand loose (s.release functionId items) := by
  unfold State.release
  split
  · rename_i hempty
    rw [List.isEmpty_iff.mp hempty, Multiset.coe_nil, zero_add] at h
    exact h
  · exact Books.tallied_items functionId .inactive items h.less

theorem Books.releaseItems (items : List (Item B)) (h : Books ((items : Multiset (Item B)) + hand) loose s) :
    Books hand loose (s.releaseItems items) := by
  induction items generalizing s with
  | nil => simpa [State.releaseItems] using h
  | cons item rest ih =>
    apply ih
    apply Books.release item.functionId [item]
    rw [← add_assoc, Multiset.coe_add]
    exact h

theorem Books.releaseParked (parked : List (String × List (Item B)))
    (h : Books (↑(parked.flatMap (·.2)) + hand) loose s) :
    Books hand loose (s.releaseParked parked) := by
  induction parked generalizing s with
  | nil => simpa [State.releaseParked] using h
  | cons entry rest ih =>
    apply ih
    apply Books.release entry.1 entry.2
    rw [← add_assoc, Multiset.coe_add]
    exact h

/-! ### The operations -/

theorem ledger_record (s : State B) (functionId : String) (f : Nat → Fates → Fates) :
    (s.record functionId f).ledger = s.ledger ∧ (s.record functionId f).items = s.items ∧
      (s.record functionId f).parked = s.parked ∧ (s.record functionId f).flush = s.flush := by
  unfold record
  split <;> exact ⟨rfl, rfl, rfl, rfl⟩

theorem Books.record (h : Books hand loose s) (functionId : String) (f : Nat → Fates → Fates) :
    Books hand loose (s.record functionId f) := by
  obtain ⟨hledger, hitems, hparked, hflush⟩ := ledger_record s functionId f
  exact h.keep hledger hitems hparked hflush

/-- A function's parked items are taken in hand. -/
theorem Books.takeParked (h : Books hand loose s) (functionId : String) :
    Books (Multiset.ofList ((Assoc.get? s.parked functionId).getD []) + hand) loose
      { s with parked := Assoc.erase s.parked functionId } := by
  refine h.move rfl (Assoc.distinct_erase h.keys functionId) ?_
  have hperm := Multiset.coe_eq_coe.mpr (Assoc.flatMap_erase h.keys functionId)
  rw [← Multiset.coe_add] at hperm
  simp only [bag, buffered, ← Multiset.coe_add, ← hperm]
  abel

theorem Books.merge (items : List (Item B)) (h : Books ((items : Multiset (Item B)) + hand) loose s) :
    Books hand loose { s with items := mergeIn s.items items } := by
  refine h.move rfl h.keys ?_
  have hperm := Multiset.coe_eq_coe.mpr (mergeIn_perm s.items items)
  rw [← Multiset.coe_add] at hperm
  simp only [bag, buffered, ← Multiset.coe_add, hperm]
  abel

theorem Books.unpark (h : Books hand loose s) (functionId : String) : Books hand loose (s.unpark functionId) := by
  unfold State.unpark recordUnparked
  extract_lets recorded
  have hrecorded : Books hand loose recorded := h.record _ _
  split
  · exact hrecorded
  · rename_i items hget
    have htake := hrecorded.takeParked functionId
    rw [hget] at htake
    exact htake.merge items

theorem Books.discard (h : Books hand loose s) (functionId : String) : Books hand loose (s.discard functionId) := by
  unfold State.discard recordReleased
  extract_lets recorded dropped
  have hrecorded : Books hand loose recorded := h.record _ _
  apply Books.release functionId dropped
  refine hrecorded.move rfl (Assoc.distinct_erase hrecorded.keys functionId) ?_
  have hparked := Multiset.coe_eq_coe.mpr (Assoc.flatMap_erase hrecorded.keys functionId)
  have hitems := Multiset.coe_eq_coe.mpr
    (List.filter_append_perm (fun item : Item B => decide (item.functionId = functionId)) recorded.items)
  have hkept : (recorded.items.filter fun item => item.functionId ≠ functionId) =
      recorded.items.filter fun item => !decide (item.functionId = functionId) := by
    congr 1
    funext item
    simp
  rw [← Multiset.coe_add] at hparked hitems
  simp only [bag, buffered, dropped, ← Multiset.coe_add, ← hparked, hkept]
  rw [← hitems]
  abel

theorem Books.expireParked (expired : List String) (h : Books hand loose s) :
    Books hand loose (s.expireParked expired) := by
  induction expired generalizing s with
  | nil => exact h
  | cons functionId rest ih =>
    rw [State.expireParked]
    split
    · exact ih h
    · rename_i items hget
      apply ih
      apply Books.release functionId items
      apply Books.record
      have htake := h.takeParked functionId
      rw [hget] at htake
      exact htake

theorem Books.close (h : Books 0 loose s) : Books 0 loose s.close := by
  unfold State.close
  apply Books.releaseParked
  rw [add_zero]
  apply Books.releaseItems
  refine h.move rfl List.nodup_nil ?_
  simp only [bag, buffered, ← Multiset.coe_add, List.flatMap_nil, Multiset.coe_nil]
  abel

theorem Books.makeRoom (L : Limits) (item : Item B) (n : Nat) (h : Books hand loose s) :
    Books hand loose (makeRoom L item n s) := by
  induction n generalizing s with
  | zero => exact h
  | succ n ih =>
    rw [State.makeRoom]
    split
    · split
      · rename_i newest hnewest
        split
        · apply ih
          apply Books.tallied_items newest.functionId .bufferFull [newest]
          apply Books.less [newest]
          obtain ⟨init, hinit⟩ := List.getLast?_eq_some_iff.mp hnewest
          refine h.move rfl h.keys ?_
          simp only [bag, buffered, hinit, List.dropLast_concat, ← Multiset.coe_add]
          abel
        · exact h
      · exact h
    · exact h

/-- A loose item is counted again. -/
theorem Books.more (item : Item B) (h : Books hand (↑[item.seq] + loose) s) :
    Books (Multiset.ofList [item] + hand) loose
      { s with bytes := s.bytes + item.estimatedSize, count := s.count + 1 } := by
  have hcount := h.count
  have hbytes := h.bytes
  rw [Multiset.card_add] at hcount
  rw [total_add] at hbytes
  constructor
  · show s.count + 1 = Multiset.card (s.bag + _)
    rw [Multiset.card_add, Multiset.card_add, Multiset.coe_card, List.length_singleton]
    omega
  · show s.bytes + item.estimatedSize = total (s.bag + _)
    rw [total_add, total_add, total_coe, List.map_singleton, List.sum_singleton]
    omega
  · exact h.leased
  · show Multiset.map Item.seq (s.bag + _ + (s.sent : Multiset (Item B))) + _ + (s.lost : Multiset Nat) = List.range' 1 s.nextSeq
    rw [← h.seqs]
    simp only [Multiset.map_add, Multiset.map_coe, List.map_cons, List.map_nil]
    abel
  · exact h.counted
  · exact h.exact
  · exact h.keys

theorem coe_cons_add {α : Type} (a : α) (l : List α) (m : Multiset α) :
    (Multiset.ofList (a :: l) + m) = Multiset.ofList l + (Multiset.ofList [a] + m) := by
  have hcons : Multiset.ofList (a :: l) = Multiset.ofList [a] + Multiset.ofList l := rfl
  rw [hcons]
  abel

theorem Books.requeue (L : Limits) (items : List (Item B)) (h : Books hand (↑(items.map Item.seq) + loose) s) :
    Books (Multiset.ofList (s.requeue L items).2 + hand) loose (s.requeue L items).1 := by
  induction items generalizing s hand with
  | nil => simpa [State.requeue] using h
  | cons item rest ih =>
    have hroom := h.makeRoom L item s.items.length
    rw [List.map_cons, coe_cons_add, add_left_comm] at hroom
    rw [State.requeue]
    split
    · apply ih
      exact Books.tallied_items item.functionId .bufferFull [item] hroom
    · have hrest := ih hroom.more
      simp only
      rw [coe_cons_add]
      exact hrest

theorem Books.requeueFrames (L : Limits) (items : List (Item B)) (h : Books 0 ↑(items.map Item.seq) s) :
    Books 0 0 (s.requeueFrames L items) := by
  unfold State.requeueFrames
  extract_lets sorted
  have hsorted : Books 0 (↑(sorted.map Item.seq) + 0) s := by
    have hperm := Multiset.coe_eq_coe.mpr ((List.perm_insertionSort (fun a b => a.seq ≤ b.seq) items).map Item.seq)
    rw [add_zero, hperm]
    exact h
  split
  · exact hsorted.dropItems .inactive sorted
  · exact (hsorted.requeue L sorted).merge _

/-! ### The flush -/

theorem Books.take (h : Books hand loose s) (hflush : s.flush = none) : Books hand loose s.take := by
  refine h.move rfl h.keys ?_
  simp only [State.take, bag, buffered, hflush, Option.elim_some, Option.elim_none, Flush.all, ← Multiset.coe_add,
    Multiset.coe_nil]
  abel

theorem Flush.all_sort (f : Flush B) {item : Item B} {rest : List (Item B)} (htaken : f.taken = item :: rest)
    (answer : Gate) : (Multiset.ofList (Flush.sort f item rest answer).all) = Multiset.ofList f.all := by
  have hcons : Multiset.ofList (item :: rest) = Multiset.ofList [item] + Multiset.ofList rest := rfl
  unfold Flush.all
  rw [htaken]
  cases answer <;>
  · simp only [Flush.sort, ← Multiset.coe_add, hcons]
    abel

/-- The next item goes to one of the three lists, whoever answered for its function. -/
theorem Books.sort {f g : Flush B} {item : Item B} {rest : List (Item B)} (h : Books hand loose s)
    (hflush : s.flush = some f) (hall : g.all = f.all) (htaken : g.taken = item :: rest) (answer : Gate) :
    Books hand loose { s with flush := some (Flush.sort g item rest answer) } := by
  refine h.move rfl h.keys ?_
  have hsort := Flush.all_sort g htaken answer
  simp only [bag, buffered, hflush, Option.elim_some, ← Multiset.coe_add, hsort, hall]

theorem Books.park (item : Item B) (h : Books (Multiset.ofList [item] + hand) loose s) :
    Books hand loose
      { s with parked :=
          Assoc.insert s.parked item.functionId (insertInOrder ((Assoc.get? s.parked item.functionId).getD []) item) } := by
  refine h.move rfl (Assoc.distinct_insert h.keys _ _) ?_
  generalize hlist : (Assoc.get? s.parked item.functionId).getD [] = list
  have hinsert := Multiset.coe_eq_coe.mpr (Assoc.flatMap_insert s.parked item.functionId (insertInOrder list item))
  have horder := Multiset.coe_eq_coe.mpr (insertInOrder_perm list item)
  have hcons : Multiset.ofList (item :: list) = Multiset.ofList [item] + Multiset.ofList list := rfl
  rw [hlist, ← Multiset.coe_add, ← Multiset.coe_add, horder, hcons] at hinsert
  have hparked : Multiset.ofList ((Assoc.insert s.parked item.functionId (insertInOrder list item)).flatMap (·.2)) =
      Multiset.ofList [item] + Multiset.ofList (s.parked.flatMap (·.2)) := by
    apply add_left_cancel (a := Multiset.ofList list)
    rw [hinsert]
    abel
  simp only [bag, buffered, ← Multiset.coe_add, hparked]
  abel

theorem Books.settle (since : Nat) (held : List (Item B)) (h : Books (Multiset.ofList held + hand) loose s) :
    Books (Multiset.ofList (s.settle since held).2 + hand) loose (s.settle since held).1 := by
  induction held generalizing s hand with
  | nil => exact h
  | cons item rest ih =>
    rw [coe_cons_add, add_left_comm] at h
    rw [State.settle]
    split
    · exact ih (Books.release item.functionId [item] h)
    · split
      · have hmoved : Books (Multiset.ofList rest + (Multiset.ofList [item] + hand)) loose s := by rwa [add_left_comm]
        have hrest := ih hmoved
        simp only
        rw [coe_cons_add]
        exact hrest
      · exact ih h.park

/-- The frames of a flush take their items and are leased. -/
theorem Books.lease (out : List (Frame B)) (h : Books 0 ↑((out.flatMap Frame.items).map Item.seq) s) :
    Books 0 0 { s with inFlight := s.inFlight + (out.map Frame.bytes).sum, outbox := s.outbox ++ out } := by
  constructor
  · exact h.count
  · exact h.bytes
  · show s.inFlight + _ = ((s.outbox ++ out).map Frame.bytes).sum
    rw [h.leased, List.map_append, List.sum_append]
  · rw [← h.seqs]
    show Multiset.map Item.seq (s.bag + 0 + Multiset.ofList (s.written ++ (s.outbox ++ out).flatMap Frame.items)) + 0 +
      (s.lost : Multiset Nat) = Multiset.map Item.seq (s.bag + 0 + Multiset.ofList (s.written ++ s.outbox.flatMap Frame.items))
        + _ + (s.lost : Multiset Nat)
    simp only [List.flatMap_append, ← Multiset.coe_add, Multiset.map_add, Multiset.map_coe]
    abel
  · exact h.counted
  · exact h.exact
  · exact h.keys

theorem Books.endFlush (J : Wire B) (L : Limits) {f : Flush B} (h : Books 0 0 s) (hflush : s.flush = some f)
    (htaken : f.taken = []) : Books 0 0 (s.endFlush J L f) := by
  have hout : Books (Multiset.ofList (f.sendable ++ f.dropped) + (Multiset.ofList f.held + 0)) 0
      { s with flush := none } := by
    refine h.move rfl h.keys ?_
    simp only [bag, buffered, hflush, Option.elim_some, Option.elim_none, Flush.all, htaken, ← Multiset.coe_add,
      Multiset.coe_nil]
    abel
  unfold State.endFlush
  extract_lets gone s₁ out
  have hless : Books (Multiset.ofList f.held + 0) (↑(gone.map Item.seq) + 0) s₁ := hout.less
  have hsettle := hless.settle f.since f.held
  split
  rename_i s₂ requeued hpair
  extract_lets s₃ s₄
  rw [hpair] at hsettle
  have hmerge : Books 0 (↑(gone.map Item.seq) + 0) s₃ := by
    apply (hsettle.merge requeued).keep <;> rfl
  have hsplit : (↑(gone.map Item.seq) + 0 : Multiset Nat) =
      ↑(f.dropped.map Item.seq) + (↑((tooLarge J L f.sendable).map Item.seq) + ↑((out.flatMap Frame.items).map Item.seq)) := by
    have hfit := Multiset.coe_eq_coe.mpr ((frames_tooLarge_perm J L f.sendable).map Item.seq)
    rw [List.map_append, ← Multiset.coe_add] at hfit
    simp only [gone, List.map_append, ← Multiset.coe_add, ← hfit]
    abel
  rw [hsplit] at hmerge
  exact ((hmerge.dropItems .inactive f.dropped).dropItems .tooLarge (tooLarge J L f.sendable)).lease out

/-! ### Runs -/

theorem estimatedSize_join (last item : Item B) :
    (last.join item).estimatedSize = last.estimatedSize + Item.listed item.matched := by
  unfold Item.join Item.estimatedSize Item.listed
  simp only [List.map_append, List.sum_append]
  omega

theorem joins_eq_some {item last : Item B} (h : s.joins item = some last) : ∃ init, s.items = init ++ [last] := by
  unfold joins at h
  split at h
  · exact List.getLast?_eq_some_iff.mp (Option.filter_eq_some_iff.mp h).1
  · cases h

/-- An emit joins the last item: it gets no `seq` of its own. -/
theorem Books.join {item last : Item B} (h : Books 0 0 s) (hjoin : s.joins item = some last) :
    Books 0 0 { s with items := s.items.dropLast ++ [last.join item], bytes := s.bytes + Item.listed item.matched } := by
  obtain ⟨init, hinit⟩ := joins_eq_some hjoin
  have hbag : s.bag = Multiset.ofList [last] + (Multiset.ofList init + Multiset.ofList (s.parked.flatMap (·.2)) +
      Multiset.ofList (s.flush.elim [] Flush.all)) := by
    simp only [bag, buffered, hinit, ← Multiset.coe_add]
    abel
  have hbag' : bag { s with items := s.items.dropLast ++ [last.join item], bytes := s.bytes + Item.listed item.matched } =
      Multiset.ofList [last.join item] + (Multiset.ofList init + Multiset.ofList (s.parked.flatMap (·.2)) +
        Multiset.ofList (s.flush.elim [] Flush.all)) := by
    simp only [bag, buffered, hinit, List.dropLast_concat, ← Multiset.coe_add]
    abel
  have hcount := h.count
  have hbytes := h.bytes
  have hseqs := h.seqs
  rw [hbag] at hcount hbytes hseqs
  constructor
  · rw [hbag']
    exact hcount
  · rw [hbag']
    simp only [total_add, total_coe, List.map_singleton, List.sum_singleton, estimatedSize_join] at hbytes ⊢
    omega
  · exact h.leased
  · rw [hbag']
    exact hseqs
  · exact h.counted
  · exact h.exact
  · exact h.keys

theorem Books.append (item : Item B) (h : Books 0 0 s) :
    Books 0 0
      { s with items := s.items ++ [{ item with seq := s.nextSeq + 1 }], nextSeq := s.nextSeq + 1
               bytes := s.bytes + item.estimatedSize, count := s.count + 1 } := by
  have hnext : Books 0 (↑[s.nextSeq + 1] + 0) { s with nextSeq := s.nextSeq + 1 } := by
    refine ⟨h.count, h.bytes, h.leased, ?_, h.counted, h.exact, h.keys⟩
    show Multiset.map Item.seq (s.bag + 0 + (s.sent : Multiset (Item B))) + _ + (s.lost : Multiset Nat) =
      List.range' 1 (s.nextSeq + 1)
    rw [List.range'_1_concat, ← Multiset.coe_add, ← h.seqs, Nat.add_comm 1]
    abel
  refine (hnext.more { item with seq := s.nextSeq + 1 }).move rfl h.keys ?_
  simp only [bag, buffered, ← Multiset.coe_add]
  abel

theorem Books.push (L : Limits) (item : Item B) (h : Books 0 0 s) : Books 0 0 (s.push L item) := by
  unfold State.push
  extract_lets size
  split
  · exact h.tallied_none item.functionId .tooLarge
  · split
    · exact h.tallied_none item.functionId .inactive
    · split
      · rename_i last hjoin
        exact h.join hjoin
      · split
        · exact h.tallied_none item.functionId .bufferFull
        · exact h.append item

theorem Books.write {frame : Frame B} {rest : List (Frame B)} (h : Books 0 0 s) (houtbox : s.outbox = frame :: rest) :
    Books 0 0 (unlease { s with outbox := rest, written := s.written ++ frame.items } frame.bytes) := by
  have hleased := h.leased
  rw [houtbox, List.map_cons, List.sum_cons] at hleased
  constructor
  · exact h.count
  · exact h.bytes
  · show s.inFlight - frame.bytes = (rest.map Frame.bytes).sum
    omega
  · have hsent : sent (unlease { s with outbox := rest, written := s.written ++ frame.items } frame.bytes) = s.sent := by
      show s.written ++ frame.items ++ rest.flatMap Frame.items = s.written ++ s.outbox.flatMap Frame.items
      rw [houtbox, List.flatMap_cons, List.append_assoc]
    rw [hsent]
    exact h.seqs
  · exact h.counted
  · show (s.short || decide (s.inFlight < frame.bytes)) = false
    rw [h.exact, decide_eq_false (by omega)]
    rfl
  · exact h.keys

/-- Some frames give their leases back: their items are nowhere. -/
theorem Books.unlease (h : Books 0 0 s) (back rest : List (Frame B)) (houtbox : s.outbox.Perm (back ++ rest)) :
    Books 0 ↑((back.flatMap Frame.items).map Item.seq)
      (State.unlease { s with outbox := rest } (back.map Frame.bytes).sum) := by
  have hleased := h.leased
  rw [(houtbox.map Frame.bytes).sum_eq, List.map_append, List.sum_append] at hleased
  constructor
  · exact h.count
  · exact h.bytes
  · show s.inFlight - _ = (rest.map Frame.bytes).sum
    omega
  · have hitems := Multiset.coe_eq_coe.mpr (houtbox.flatMap_right Frame.items)
    rw [List.flatMap_append, ← Multiset.coe_add] at hitems
    show Multiset.map Item.seq (s.bag + 0 + Multiset.ofList (s.written ++ rest.flatMap Frame.items)) + _ +
      (s.lost : Multiset Nat) = List.range' 1 s.nextSeq
    rw [← h.seqs, sent]
    simp only [← Multiset.coe_add, Multiset.map_add, hitems, ← Multiset.map_coe]
    abel
  · exact h.counted
  · show (s.short || decide (s.inFlight < _)) = false
    rw [h.exact, decide_eq_false (by omega)]
    rfl
  · exact h.keys

/-- What is read back of an item has its `seq`. -/
theorem map_seq_readBack (J : Wire B) (items : List (Item B)) :
    (items.map (Item.readBack J)).map Item.seq = items.map Item.seq := by
  rw [List.map_map]
  rfl

theorem Books.connect (J : Wire B) (L : Limits) (h : Books 0 0 s) : Books 0 0 (s.connect J L) := by
  unfold State.connect
  extract_lets s'
  apply Books.requeueFrames
  rw [map_seq_readBack]
  apply (h.unlease s.outbox [] (by rw [List.append_nil])).keep <;> rfl

theorem Books.takeDrops (h : Books 0 0 s) :
    Books 0 0 { s with drops := [], exported := fun key => s.exported key + (Assoc.get? s.drops key).getD 0 } := by
  refine ⟨h.count, h.bytes, h.leased, h.seqs, ?_, h.exact, h.keys⟩
  intro key
  have hkey := h.counted key
  show 0 + (s.exported key + _) = s.tally.countP _
  omega

theorem Books.step {J : Wire B} {L : Limits} {a : Act B} (h : Books 0 0 s) (hstep : s.step J L a = some s') :
    Books 0 0 s' := by
  cases effect_of_step hstep with
  | push item => exact h.push L item
  | unpark functionId current => apply (h.unpark functionId).keep <;> rfl
  | unready functionId => apply h.keep <;> rfl
  | discard functionId => exact h.discard functionId
  | expireParked expired => exact h.expireParked expired
  | close => exact h.close
  | takeDrops => exact h.takeDrops
  | take hidle => exact h.take hidle
  | cached hflush htaken => exact h.sort hflush rfl htaken _
  | asked hflush htaken =>
    apply h.sort hflush
    · rfl
    · exact htaken
  | endFlush hflush htaken => exact h.endFlush J L hflush htaken
  | write houtbox => exact h.write houtbox
  | disconnect => apply h.keep <;> rfl
  | connect => exact h.connect J L

end State

end Iii.Reporter
