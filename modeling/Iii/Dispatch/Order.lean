import Iii.Dispatch.Bounds
import Mathlib.Algebra.Order.BigOperators.Group.Multiset
import Mathlib.Algebra.Order.Group.Nat

/-! Whoever waits is served, and in turn.

With a runtime, a slot is never given up while an activation waits: where it is let go of, after an activation or by
the guard of one that panicked, it goes to the head of the queue. So while the queue is not empty all slots are held,
no call finds a free one ahead of it, and the activations get their slots in the order in which they were accepted.

What becomes of the accepted ones is kept in three lists: those that have or had a slot, those that wait, and those
dropped with the queue when the observer failed or was disposed. -/
namespace Iii.Dispatch
open Lib

variable {P : Policy} {o : Obs} {t : Task} {a : Act} {next : Next} {news : List Task} {c : Config Obs Task}

/-- The runs in which there is a runtime. -/
def withRuntime (P : Policy) : Pool Obs Task Act := (pool P).only (fun _ => True) fun _ _ a => a ≠ .noRuntime

theorem withRuntime_reachable (h : ((withRuntime P).system .new).Reachable c) : ((pool P).system .new).Reachable c :=
  Pool.only_reachable h

/-- A runtime takes what it is given. -/
theorem step_runtime (h : step P o t a = some next) (ha : a ≠ .noRuntime) {k : Nat} (ht : t = .spawn k ∨ t = .respawn k) :
    next.2.1 = [.run k] := by
  rcases ht with rfl | rfl <;> cases a with
  | go => cases h; rfl
  | noRuntime => exact absurd rfl ha
  | _ => cases h

/-! ### All slots are held while the queue is not empty -/

structure Obs.Ordered (P : Policy) (o : Obs) : Prop where
  full : o.queue ≠ [] → o.running = P.maxInFlight
  order : (o.started ++ o.queue).Pairwise (· < ·)
  all : (o.started ++ o.queue ++ o.dropped).Perm (List.range o.accepted)

namespace Obs.Ordered

theorem new : Obs.new.Ordered P := ⟨fun h => absurd rfl h, .nil, .refl _⟩

/-- The next activation comes after all others. -/
theorem snoc (h : o.Ordered P) : (o.started ++ o.queue ++ [o.accepted]).Pairwise (· < ·) := by
  refine List.pairwise_append.mpr ⟨h.order, List.pairwise_singleton _ _, fun k hk n hn => ?_⟩
  rw [List.mem_singleton.mp hn]
  exact List.mem_range.mp (h.all.subset (List.mem_append_left _ hk))

theorem all_snoc (h : o.Ordered P) :
    (o.started ++ o.queue ++ [o.accepted] ++ o.dropped).Perm (List.range (o.accepted + 1)) := by
  have hend : (o.started ++ o.queue ++ ([o.accepted] ++ o.dropped)).Perm (o.started ++ o.queue ++ (o.dropped ++ [o.accepted])) :=
    List.perm_append_comm.append_left _
  rw [← List.append_assoc, ← List.append_assoc] at hend
  rw [List.range_succ]
  exact hend.trans (h.all.append_right _)

theorem takeSlot (h : o.Ordered P) (hqueue : o.queue = []) : o.takeSlot.Ordered P := by
  have hsnoc := h.snoc
  have hall := h.all_snoc
  simp only [hqueue, List.append_nil] at hsnoc hall
  refine ⟨fun hne => absurd hqueue hne, ?_, ?_⟩
  · simpa only [Obs.takeSlot, Obs.accept, hqueue, List.append_nil] using hsnoc
  · simpa only [Obs.takeSlot, Obs.accept, hqueue, List.append_nil] using hall

theorem enqueue (h : o.Ordered P) (hb : o.Bounded P) (hfull : ¬(o.running < P.maxInFlight ∧ o.queue = [])) :
    ({ o.accept with queue := o.queue ++ [o.accepted] } : Obs).Ordered P := by
  have hrunning : o.running = P.maxInFlight := by
    by_cases hqueue : o.queue = []
    · exact hb.running.antisymm (Nat.le_of_not_lt fun hlt => hfull ⟨hlt, hqueue⟩)
    · exact h.full hqueue
  refine ⟨fun _ => hrunning, ?_, ?_⟩
  · simpa only [Obs.accept, ← List.append_assoc] using h.snoc
  · simpa only [Obs.accept, ← List.append_assoc] using h.all_snoc

theorem nextQueued (h : o.Ordered P) (on : Nat → Task) : (o.nextQueued on).1.Ordered P := by
  unfold Obs.nextQueued
  split
  · rename_i k rest hqueue
    have horder := h.order
    have hall := h.all
    rw [hqueue, List.append_cons] at horder hall
    exact ⟨fun _ => h.full (by simp [hqueue]), horder, hall⟩
  · rename_i hqueue
    exact ⟨fun hne => absurd hqueue hne, h.order, h.all⟩

theorem dropQueue (h : o.Ordered P) : ({ o with queue := [], dropped := o.dropped ++ o.queue } : Obs).Ordered P := by
  refine ⟨fun hne => absurd rfl hne, ?_, ?_⟩
  · rw [List.append_nil]
    exact (List.pairwise_append.mp h.order).1
  · rw [List.append_nil]
    exact (List.perm_append_comm.append_left o.started).trans ((List.append_assoc ..) ▸ h.all)

end Obs.Ordered

theorem Moves.ordered (h : Moves P o t next) (ht : t ≠ .unslot) (hb : o.Bounded P) (ho : o.Ordered P) :
    next.1.Ordered P := by
  cases h with
  | slot _ _ hqueue => exact ho.takeSlot hqueue
  | ownSlot _ hlt =>
    refine ho.takeSlot (by_contra fun hqueue => ?_)
    exact absurd (ho.full hqueue) hlt.ne
  | enqueue _ hfull => exact ho.enqueue hb hfull
  | next | release => exact ho.nextQueued _
  | dropQueue => exact ho.dropQueue
  | unslot => exact absurd rfl ht
  | pass | take | giveBack | drop | invoke | deliver | unsent | undelivered | update | countDropped =>
    exact ⟨ho.full, ho.order, ho.all⟩

/-- Without a runtime to fail, a slot is not simply given up. -/
theorem Moves.keepsSlot (h : Moves P o t next) (hruntime : ∀ k, t = .spawn k ∨ t = .respawn k → next.2.1 = [.run k]) :
    .unslot ∉ next.2.1 := by
  cases h with
  | pass h =>
    cases h with
    | unrespawned k => exact absurd (hruntime k (.inr rfl)) (by simp)
    | _ => simp
  | update h =>
    unfold Obs.update
    dsimp only
    split <;> simp
  | next | release =>
    unfold Obs.nextQueued
    split <;> simp
  | _ => simp [Obs.drop]

theorem ordered (h : ((withRuntime P).system .new).Reachable c) : c.state.Ordered P := by
  have hkept : (withRuntime P).Kept (fun o => o.Bounded P ∧ o.Ordered P) fun _ t => t ≠ .unslot :=
    { start := by
        rintro _ t - ⟨-, ht⟩ rfl
        cases ht
      exec := by
        rintro s t a s' news ⟨hb, ho⟩ ht ⟨ha, _, hstep⟩
        have hmove := step_moves hstep
        exact ⟨⟨hmove.bounded hb, hmove.ordered ht hb ho⟩,
          fun u hu heq => hmove.keepsSlot (fun k => step_runtime hstep ha) (heq ▸ hu)⟩
      stable := fun _ _ hu _ => hu }
  exact (hkept.reachable ⟨bounded_new, .new⟩ h).1.2

/-! ### Each that started runs once -/

/-- The activation whose slot a task holds while its target is still to be invoked. -/
def Task.starts : Task → Multiset Nat
  | .spawn k | .run k | .deliver k | .respawn k => {k}
  | _ => 0

theorem Passes.starts (h : Passes P o t news)
    (hruntime : ∀ k, t = .spawn k ∨ t = .respawn k → news = [.run k]) : (news.map Task.starts).sum = t.starts := by
  cases h with
  | unspawned k => exact absurd (hruntime k (.inl rfl)) (by simp)
  | unrespawned k => exact absurd (hruntime k (.inr rfl)) (by simp)
  | _ => rfl

theorem Updates.starts {flags : Flags} (h : Updates P o t flags) : t.starts = 0 := by
  cases h <;> rfl

theorem Obs.nextQueued_starts {on : Nat → Task} (hon : ∀ k, (on k).starts = {k}) (o : Obs) (n : Multiset Nat)
    (hsum : (↑o.started : Multiset Nat) = ↑o.invoked + n) :
    (↑(o.nextQueued on).1.started : Multiset Nat) =
      ↑(o.nextQueued on).1.invoked + (((o.nextQueued on).2.1.map Task.starts).sum + n) := by
  unfold Obs.nextQueued
  split
  · rename_i k _ _
    simp only [← Multiset.coe_add, hsum, List.map_cons, List.map_nil, List.sum_cons, List.sum_nil, add_zero, hon]
    rw [Multiset.coe_singleton, add_assoc, add_comm n]
  · simpa using hsum

theorem Moves.starts (h : Moves P o t next) (hruntime : ∀ k, t = .spawn k ∨ t = .respawn k → next.2.1 = [.run k])
    (n : Multiset Nat) (hsum : (↑o.started : Multiset Nat) = ↑o.invoked + (t.starts + n)) :
    (↑next.1.started : Multiset Nat) = ↑next.1.invoked + ((next.2.1.map Task.starts).sum + n) := by
  cases h with
  | pass h => rwa [← h.starts hruntime] at hsum
  | update h =>
    rw [Obs.update_sum rfl]
    rwa [h.starts] at hsum
  | next | release =>
    simp only [Task.starts, zero_add] at hsum
    exact Obs.nextQueued_starts (fun _ => rfl) o n hsum
  | slot | ownSlot =>
    simp only [Task.starts, zero_add] at hsum
    simp only [Obs.takeSlot, Obs.accept, ← Multiset.coe_add, hsum, Task.starts, List.map_cons, List.map_nil,
      List.sum_cons, List.sum_nil, add_zero, Multiset.coe_singleton]
    rw [add_assoc, add_comm n]
  | invoke | deliver =>
    simp only [Task.starts] at hsum
    simp only [← Multiset.coe_add, hsum, Task.starts, List.map_cons, List.map_nil, List.sum_cons, List.sum_nil,
      zero_add, Multiset.coe_singleton, add_assoc]
  | take | enqueue | giveBack | drop | unsent | undelivered | unslot | dropQueue | countDropped =>
    simpa [Task.starts, Obs.accept, Obs.drop, Obs.count] using hsum

theorem starts_balanced (P : Policy) :
    (withRuntime P).Balanced (fun o => (↑o.started : Multiset Nat)) (fun o => ↑o.invoked) Task.starts where
  start := by
    rintro _ t ⟨-, ht⟩
    cases t <;> first | rfl | cases ht
  exec := fun ⟨ha, _, h⟩ => (step_moves h).starts fun _ => step_runtime h ha

theorem started_eq (h : ((withRuntime P).system .new).Reachable c) :
    (↑c.state.started : Multiset Nat) = ↑c.state.invoked + (c.tasks.map Task.starts).sum :=
  (starts_balanced P).reachable (s := .new) rfl h

/-- Whoever is to be invoked has a slot. -/
theorem Task.starts_eq_zero (h : t.slots = 0) : t.starts = 0 := by
  cases t <;> first | rfl | cases h

theorem starts_eq_zero {ts : Multiset Task} (h : (ts.map Task.slots).sum = 0) : (ts.map Task.starts).sum = 0 := by
  refine Multiset.sum_eq_zero fun k hk => ?_
  obtain ⟨t, ht, rfl⟩ := Multiset.mem_map.mp hk
  exact Task.starts_eq_zero (Multiset.sum_eq_zero_iff.mp h _ (Multiset.mem_map_of_mem _ ht))

/-- The only activation that has a slot and is not invoked yet is the last that got one. -/
theorem started_snoc {k : Nat} {ts : Multiset Task} (hone : P.maxInFlight = 1) (hslots : t.slots = 1)
    (hstarts : t.starts = {k}) (h : ((withRuntime P).system .new).Reachable ⟨o, t ::ₘ ts⟩)
    (hbegun : o.invoked <+: o.started) : o.started = o.invoked ++ [k] := by
  have hreach := withRuntime_reachable h
  have hrunning := running_eq hreach
  have hle := (bounded hreach).running
  rw [Multiset.map_cons, Multiset.sum_cons, hslots] at hrunning
  have hstarted := started_eq h
  rw [Multiset.map_cons, Multiset.sum_cons, hstarts, starts_eq_zero (by dsimp only at *; omega), add_zero] at hstarted
  obtain ⟨rest, hrest⟩ := hbegun
  dsimp only at hstarted
  rw [← hrest, ← Multiset.coe_add, add_right_inj, ← Multiset.coe_singleton, Multiset.coe_eq_coe,
    List.perm_singleton] at hstarted
  rw [← hrest, hstarted]

theorem Moves.invoked (h : Moves P o t next) (hbegun : o.invoked <+: o.started)
    (hlast : ∀ k, t.slots = 1 → t.starts = {k} → o.started = o.invoked ++ [k]) : next.1.invoked <+: next.1.started := by
  cases h with
  | slot | ownSlot => exact hbegun.trans (List.prefix_append _ _)
  | next | release =>
    unfold Obs.nextQueued
    split
    · exact hbegun.trans (List.prefix_append _ _)
    · exact hbegun
  | invoke k | deliver k => exact hlast k rfl rfl ▸ List.prefix_rfl
  | _ => exact hbegun

/-- With one slot, the targets are invoked in the order in which the activations were accepted. -/
theorem invoked_prefix (hone : P.maxInFlight = 1) (h : ((withRuntime P).system .new).Reachable c) :
    c.state.invoked <+: c.state.started := by
  refine System.Reachable.invariant (I := fun c => c.state.invoked <+: c.state.started) ?_ ?_ h
  · rintro _ rfl
    exact List.nil_prefix
  · intro c c' hreach hbegun hstep
    cases hstep with
    | start ts _ => exact hbegun
    | exec ts hexec =>
      obtain ⟨_, _, hstep⟩ := hexec
      exact (step_moves hstep).invoked hbegun fun k hslots hstarts => started_snoc hone hslots hstarts hreach hbegun

/-! ### The drop counters -/

/-- The drops that there have been: of events, of what was in the queue, and of what was too large for the target. -/
def Obs.dropEvents (o : Obs) (r : Reason) : Nat :=
  o.outcomes.count (.dropped r) + (if r = .inactive then o.dropped.length else 0) + if r = .tooLarge then o.unsent else 0

/-- Dropped with the queue, and still to be added to the counter. -/
def Task.uncounted (r : Reason) : Task → Nat
  | .countDropped n => if r = .inactive then n else 0
  | _ => 0

section Counters
variable {r : Reason}

theorem Passes.uncounted (h : Passes P o t news) : (news.map (Task.uncounted r)).sum = t.uncounted r := by
  cases h <;> rfl

theorem Updates.uncounted {flags : Flags} (h : Updates P o t flags) : t.uncounted r = 0 := by
  cases h <;> rfl

theorem Moves.uncounted (h : Moves P o t next) (n : Nat) (hsum : o.dropEvents r = o.drops r + (t.uncounted r + n)) :
    next.1.dropEvents r = next.1.drops r + ((next.2.1.map (Task.uncounted r)).sum + n) := by
  cases h with
  | pass h => rwa [← h.uncounted] at hsum
  | update h =>
    rw [Obs.update_sum rfl]
    rwa [h.uncounted] at hsum
  | next | release =>
    unfold Obs.nextQueued
    split <;> exact hsum
  | slot | ownSlot | enqueue =>
    simpa [Task.uncounted, Obs.dropEvents, Obs.takeSlot, Obs.accept, List.count_append] using hsum
  | drop reason =>
    rcases eq_or_ne reason r with rfl | hne
    · simp [Obs.dropEvents, Task.uncounted, Obs.drop, Obs.count] at hsum ⊢
      omega
    · simpa [Obs.dropEvents, Task.uncounted, Obs.drop, Obs.count, hne, hne.symm] using hsum
  | dropQueue | countDropped =>
    rcases eq_or_ne r .inactive with rfl | hne
    · simp [Obs.dropEvents, Task.uncounted, Obs.count] at hsum ⊢
      omega
    · simpa [Obs.dropEvents, Task.uncounted, Obs.count, hne] using hsum
  | unsent | undelivered =>
    rcases eq_or_ne r .tooLarge with rfl | hne
    · simp [Obs.dropEvents, Task.uncounted, Obs.count] at hsum ⊢
      omega
    · simpa [Obs.dropEvents, Task.uncounted, Obs.count, hne] using hsum
  | take | giveBack | invoke | deliver | unslot => exact hsum

theorem drops_balanced (P : Policy) (r : Reason) :
    (pool P).Balanced (·.dropEvents r) (·.drops r) (Task.uncounted r) where
  start := by
    intro _ t h
    cases t <;> first | rfl | cases h
  exec := fun ⟨_, h⟩ => (step_moves h).uncounted

theorem drops_eq (h : ((pool P).system .new).Reachable c) (r : Reason) :
    c.state.dropEvents r = c.state.drops r + (c.tasks.map (Task.uncounted r)).sum := by
  refine (drops_balanced P r).reachable (s := .new) ?_ h
  cases r <;> rfl

end Counters

/-- Nothing happened to the observer, or its last fire did: what is queued is served. -/
def Flags.keepsQueue (flags : Flags) : Prop :=
  flags.failed = none ∧ (flags.disposed = none ∨ flags.disposed = some .maxFires)

/-- What is known of the task that drops the queue, and of the one that is to find out whether to. -/
def Task.dropsFor (flags : Flags) : Task → Prop
  | .readReason => flags.failed.isSome ∨ flags.disposed.isSome
  | .dropQueue => ¬flags.keepsQueue
  | _ => True

theorem Updates.keepsQueue {flags : Flags} (h : Updates P o t flags) (hkeeps : flags.keepsQueue) :
    o.flags.keepsQueue := by
  cases h with
  | ready => exact hkeeps
  | fail =>
    split at hkeeps
    · cases hkeeps.1
    · exact hkeeps
  | dispose | finish =>
    split at hkeeps
    · rename_i hnone
      exact ⟨hkeeps.1, .inl hnone⟩
    · exact hkeeps

theorem Moves.flags (h : Moves P o t next) : next.1.flags = o.flags ∨ Updates P o t next.1.flags := by
  cases h with
  | update h => exact .inr h
  | next | release => exact .inl (Obs.nextQueued_flags ..)
  | _ => exact .inl rfl

theorem Moves.dropsFor (h : Moves P o t next) {u : Task} (hu : u.dropsFor o.flags) : u.dropsFor next.1.flags := by
  rcases h.flags with heq | h
  · rwa [heq]
  · cases u with
    | readReason => exact hu.imp h.mono.1 h.mono.2
    | dropQueue => exact fun hkeeps => hu (h.keepsQueue hkeeps)
    | _ => trivial

theorem Flags.dropsFor_of_state {flags : Flags} (h : flags.state = .disposed ∨ flags.state = .error) :
    Task.readReason.dropsFor flags := by
  unfold Flags.state at h
  unfold Task.dropsFor
  grind -ring -linarith

theorem Moves.dropped (h : Moves P o t next) (hkept : o.flags.keepsQueue → o.dropped = []) (ht : t.dropsFor o.flags) :
    (next.1.flags.keepsQueue → next.1.dropped = []) ∧ ∀ u ∈ next.2.1, u.dropsFor next.1.flags := by
  cases h with
  | pass h =>
    refine ⟨hkept, ?_⟩
    cases h with
    | drops hreason =>
      intro u hu
      rw [List.mem_singleton.mp hu]
      rintro ⟨hfailed, hnone | hlast⟩ <;> dsimp only at *
      · simp [Task.dropsFor, hfailed, hnone] at ht
      · simp [Flags.reason, hlast] at hreason
    | _ => simp [Task.dropsFor]
  | update h =>
    refine ⟨fun hkeeps => hkept (h.keepsQueue hkeeps), ?_⟩
    unfold Obs.update
    dsimp only
    split
    · rename_i hstate
      intro u hu
      rw [List.mem_singleton.mp hu]
      exact Flags.dropsFor_of_state hstate.2
    · simp
  | next | release =>
    unfold Obs.nextQueued
    split <;> exact ⟨hkept, by simp [Task.dropsFor]⟩
  | dropQueue => exact ⟨fun hkeeps => absurd hkeeps ht, by simp [Task.dropsFor]⟩
  | _ => exact ⟨hkept, by simp [Task.dropsFor, Obs.drop]⟩

/-- The last fire does not drop the queue. -/
theorem dropped_eq (h : ((pool P).system .new).Reachable c) (hkeeps : c.state.flags.keepsQueue) :
    c.state.dropped = [] := by
  have hkept : (pool P).Kept (fun o => o.flags.keepsQueue → o.dropped = []) fun o t => t.dropsFor o.flags :=
    { start := by
        rintro s t - ht
        cases t <;> trivial
      exec := fun hJ ht ⟨_, h⟩ => (step_moves h).dropped hJ ht
      stable := fun _ _ hu ⟨_, h⟩ => (step_moves h).dropsFor hu }
  exact (hkept.reachable (s := .new) (fun _ => rfl) h).1 hkeeps

/-! ### Altogether -/

/-- What holds of the queue and the slots. -/
structure Served (P : Policy) (c : Config Obs Task) : Prop where
  /-- While one waits all slots are held: the next to be let go of is its turn. -/
  held : c.state.queue ≠ [] → (c.tasks.map Task.slots).sum = P.maxInFlight
  /-- Slots are given in the order in which the activations were accepted, and to none twice. -/
  order : (c.state.started ++ c.state.queue).Pairwise (· < ·)
  /-- Each accepted activation got a slot, or waits, or was dropped with the queue. -/
  accepted : (c.state.started ++ c.state.queue ++ c.state.dropped).Perm (List.range c.state.accepted)
  /-- Each that got a slot was invoked, or is the next thing its task does. -/
  once : (↑c.state.started : Multiset Nat) = ↑c.state.invoked + (c.tasks.map Task.starts).sum
  inTurn : P.maxInFlight = 1 → c.state.invoked <+: c.state.started
  /-- The `INACTIVE` counter: the events refused for it, and the activations dropped with the queue. -/
  inactive : c.state.outcomes.count (.dropped .inactive) + c.state.dropped.length =
    c.state.drops .inactive + (c.tasks.map (Task.uncounted .inactive)).sum
  kept : c.state.flags.keepsQueue → c.state.dropped = []

/-- **No activation is stranded**, in any run with a runtime. -/
theorem served (P : Policy) (c : Config Obs Task) (h : ((withRuntime P).system .new).Reachable c) : Served P c := by
  have hreach := withRuntime_reachable h
  have hordered := ordered h
  exact
    { held := fun hqueue => (running_eq hreach).symm.trans (hordered.full hqueue)
      order := hordered.order
      accepted := hordered.all
      once := started_eq h
      inTurn := fun hone => invoked_prefix hone h
      inactive := drops_eq hreach .inactive
      kept := dropped_eq hreach }

/-- One slot and a queue. -/
def queued : Policy := ⟨none, false, 1, 4, by simp, once.inFlight_pos⟩

/-- Two events: the first has the slot when the second is accepted. -/
theorem served_queued : ∃ c, ((withRuntime queued).system .new).Reachable c ∧ c.state.queue = [1] ∧
    (c.tasks.map Task.slots).sum = 1 := by
  have hrun := Pool.play_reachable (P := withRuntime queued) (fun _ => Task.isStart)
    (fun o t a => if a = .noRuntime then none else (step queued o t a).map fun next => (next.1, next.2.1))
    .new [.start (.ready true), .exec 0 .go, .start (.enter .event), .exec 0 .go, .exec 0 .go,
      .exec 0 .go, .exec 0 .go, .exec 0 .go, .start (.enter .event), .exec 0 .go, .exec 0 .go, .exec 0 .go,
      .exec 0 .go, .exec 0 .go]
    (fun _ _ ht => ⟨trivial, ht⟩) (fun o t a s' news h => by
      split at h
      · cases h
      · rename_i ha
        obtain ⟨next, hnext, heq⟩ := Option.map_eq_some_iff.mp h
        cases heq
        exact ⟨ha, next.2.2, hnext⟩) rfl
  exact ⟨_, hrun, rfl, (served queued _ hrun).held (by decide)⟩

end Iii.Dispatch
