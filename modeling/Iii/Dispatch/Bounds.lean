import Mathlib.Algebra.Ring.Nat
import Iii.Dispatch.Activate

/-! No more fires, slots or places in the queue than the policy has.

A fire is counted before it is known whether the activation has a place, so `fires` runs ahead of what was accepted:
by what the calls between `take_fire` and the flow section, or on the way to giving back, have in hand. In the same
way `running` is what the tasks that hold a slot make up. Both are balances, kept by every step of every task, and
the bounds follow from them at every point of any run. -/
namespace Iii.Dispatch
open Lib

variable {P : Policy} {o : Obs} {t : Task} {news : List Task} {next : Next} {c : Config Obs Task}

/-- The fire that a call has taken and neither spent nor given back. -/
def Task.fires : Task → Nat
  | .flow .. | .giveBack _ => 1
  | _ => 0

/-- The slot that a task holds. -/
def Task.slots : Task → Nat
  | .spawn _ | .run _ | .invoking | .next | .deliver _ | .delivering | .release | .respawn _ | .unslot => 1
  | _ => 0

/-! ### The balance of the fires -/

theorem Passes.fires (h : Passes P o t news) : (news.map Task.fires).sum = t.fires := by
  cases h <;> rfl

theorem Updates.fires {flags : Flags} (h : Updates P o t flags) : t.fires = 0 := by
  cases h <;> rfl

/-- What follows an `update` weighs nothing that `readReason` does not. -/
theorem Obs.update_sum {M : Type} [AddCommMonoid M] {w : Task → M} (hw : w .readReason = 0) (o : Obs) (flags : Flags) :
    ((o.update flags).2.1.map w).sum = 0 := by
  unfold Obs.update
  dsimp only
  split <;> simp [hw]

theorem Moves.fires (h : Moves P o t next) (n : Nat) (hsum : o.fires = o.accepted + (t.fires + n)) :
    next.1.fires = next.1.accepted + ((next.2.1.map Task.fires).sum + n) := by
  cases h with
  | pass h => rwa [← h.fires] at hsum
  | update h =>
    rw [Obs.update_sum rfl]
    rwa [h.fires] at hsum
  | next | release =>
    unfold Obs.nextQueued
    split <;> exact hsum
  | take => simp [Task.fires] at hsum ⊢; omega
  | slot | ownSlot | enqueue => simp [Task.fires, Obs.takeSlot, Obs.accept] at hsum ⊢; omega
  | giveBack => simp [Task.fires] at hsum ⊢; omega
  | drop | invoke | deliver | unsent | undelivered | unslot | dropQueue | countDropped => exact hsum

theorem fires_balanced (P : Policy) : (pool P).Balanced (·.fires) (·.accepted) Task.fires where
  start := by
    intro _ t h
    cases t <;> first | rfl | cases h
  exec := fun ⟨_, h⟩ => (step_moves h).fires

theorem fires_eq (h : ((pool P).system .new).Reachable c) :
    c.state.fires = c.state.accepted + (c.tasks.map Task.fires).sum :=
  (fires_balanced P).reachable (s := .new) rfl h

/-! ### The balance of the slots -/

theorem Passes.slots (h : Passes P o t news) : (news.map Task.slots).sum = t.slots := by
  cases h <;> rfl

theorem Updates.slots {flags : Flags} (h : Updates P o t flags) : t.slots = 0 := by
  cases h <;> rfl

theorem Obs.nextQueued_slots {on : Nat → Task} (hon : ∀ k, (on k).slots = 1) (o : Obs) (n : Nat)
    (hsum : o.running = 1 + n) : (o.nextQueued on).1.running = ((o.nextQueued on).2.1.map Task.slots).sum + n := by
  unfold Obs.nextQueued
  split
  · simpa [hon]
  · simp [hsum]

theorem Moves.slots (h : Moves P o t next) (n : Nat) (hsum : o.running = t.slots + n) :
    next.1.running = (next.2.1.map Task.slots).sum + n := by
  cases h with
  | pass h => rwa [← h.slots] at hsum
  | update h =>
    rw [Obs.update_sum rfl]
    rwa [h.slots] at hsum
  | next | release => exact Obs.nextQueued_slots (fun _ => rfl) o n hsum
  | slot | ownSlot => simp [Task.slots, Obs.takeSlot, Obs.accept] at hsum ⊢; omega
  | unslot => simp [Task.slots] at hsum ⊢; omega
  | take | enqueue | giveBack | drop | invoke | deliver | unsent | undelivered | dropQueue | countDropped =>
    exact hsum

theorem slots_balanced (P : Policy) : (pool P).Balanced (·.running) (fun _ => 0) Task.slots where
  start := by
    intro _ t h
    cases t <;> first | rfl | cases h
  exec := by
    rintro s t a s' news ⟨_, h⟩ n hsum
    rw [Nat.zero_add] at hsum ⊢
    exact (step_moves h).slots n hsum

theorem running_eq (h : ((pool P).system .new).Reachable c) : c.state.running = (c.tasks.map Task.slots).sum := by
  simpa using (slots_balanced P).reachable (s := .new) rfl h

/-! ### The bounds -/

/-- What `take_fire` and the flow section check. -/
structure Obs.Bounded (P : Policy) (o : Obs) : Prop where
  fires : ∀ m, P.maxFires = some m → o.fires ≤ m
  running : o.running ≤ P.maxInFlight
  queue : o.queue.length ≤ P.maxQueue

theorem Obs.Bounded.nextQueued (h : o.Bounded P) (on : Nat → Task) : (o.nextQueued on).1.Bounded P := by
  obtain ⟨hfires, hrunning, hqueue⟩ := h
  unfold Obs.nextQueued
  split
  · rename_i k rest heq
    rw [heq, List.length_cons] at hqueue
    exact ⟨hfires, hrunning, by dsimp only; omega⟩
  · exact ⟨hfires, by dsimp only; omega, hqueue⟩

theorem Moves.bounded (h : Moves P o t next) (hb : o.Bounded P) : next.1.Bounded P := by
  obtain ⟨hfires, hrunning, hqueue⟩ := hb
  cases h with
  | pass | drop | invoke | deliver | unsent | undelivered | countDropped | update => exact ⟨hfires, hrunning, hqueue⟩
  | next | release => exact Obs.Bounded.nextQueued ⟨hfires, hrunning, hqueue⟩ _
  | take _ h => exact ⟨h, hrunning, hqueue⟩
  | slot _ h | ownSlot _ h => exact ⟨hfires, h, hqueue⟩
  | enqueue _ _ hroom => exact ⟨hfires, hrunning, by rwa [List.length_append]⟩
  | giveBack => exact ⟨fun m hm => (Nat.sub_le ..).trans (hfires m hm), hrunning, hqueue⟩
  | unslot => exact ⟨hfires, (Nat.sub_le ..).trans hrunning, hqueue⟩
  | dropQueue => exact ⟨hfires, hrunning, Nat.zero_le _⟩

theorem bounded_new : Obs.new.Bounded P := ⟨fun m _ => Nat.zero_le m, Nat.zero_le _, Nat.zero_le _⟩

theorem bounded (h : ((pool P).system .new).Reachable c) : c.state.Bounded P :=
  Pool.reachable_invariant (fun hb ⟨_, hexec⟩ => (step_moves hexec).bounded hb) bounded_new h

/-- **Delivery bounds**: at every point of every run, of activations, owners' deliveries, completions and disposals in
any order, no more activations were accepted than `max_fires`, no more run than `max_in_flight`, and no more wait than
`max_queue`. -/
theorem delivery_bounds (P : Policy) (c : Config Obs Task) (h : ((pool P).system .new).Reachable c) :
    (∀ m, P.maxFires = some m → c.state.accepted ≤ m) ∧
      (c.tasks.map Task.slots).sum ≤ P.maxInFlight ∧
      c.state.running ≤ P.maxInFlight ∧
      c.state.queue.length ≤ P.maxQueue := by
  have hb := bounded h
  refine ⟨fun m hm => ?_, ?_, hb.running, hb.queue⟩
  · have hfires := hb.fires m hm
    rw [fires_eq h] at hfires
    exact (Nat.le_add_right ..).trans hfires
  · rw [← running_eq h]
    exact hb.running

/-- A policy of one activation, and a run in which it is accepted and waits for the runtime. -/
def once : Policy := ⟨some 1, false, 1, 4, by simp, by simp⟩

def activated : List (Pool.Turn Task Act) :=
  [.start (.ready true), .exec 0 .go, .start (.enter .event), .exec 0 .go, .exec 0 .go, .exec 0 .go, .exec 0 .go,
    .exec 0 .go]

theorem delivery_bounds_once : ∃ c, ((pool once).system .new).Reachable c ∧ c.state.accepted = 1 ∧
    c.state.accepted ≤ 1 ∧ (c.tasks.map Task.slots).sum = 1 ∧ (c.tasks.map Task.slots).sum ≤ 1 := by
  have hrun := play_reachable once activated rfl
  have h := delivery_bounds once _ hrun
  exact ⟨_, hrun, rfl, h.1 1 rfl, rfl, h.2.1⟩

end Iii.Dispatch
