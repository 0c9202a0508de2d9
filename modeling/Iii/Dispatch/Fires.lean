import Iii.Dispatch.Bounds
import Mathlib.Algebra.Order.BigOperators.Group.Multiset
import Mathlib.Algebra.Order.Group.Nat

/-! The last fire.

The call that takes fire number `max_fires` disposes the observer once its activation has a place. Whoever counts the
activations that had one finds the observer disposed when they are `max_fires`, whatever the order of the calls: the
last call to bring the counter there keeps its fire, and so goes on to dispose.

The other direction needs more. A call with an earlier fire may still be refused after the last fire was taken, and
gives it back to an observer that is then disposed with an activation to spare. It holds in the runs in which, at the
moment the last fire disposes the observer, no other call has a fire in hand. -/
namespace Iii.Dispatch
open Lib

variable {P : Policy} {o : Obs} {t : Task} {next : Next} {c : Config Obs Task} {m : Nat}

/-- A call between taking its fire and having done with it. -/
def Task.inProgress : Task → Bool
  | .flow .. | .giveBack _ | .finish _ => true
  | _ => false

/-- `max_fires` means `max_fires`. -/
structure Exact (m : Nat) (c : Config Obs Task) : Prop where
  exactly : c.state.flags.disposed = some .maxFires → c.state.accepted = m
  reached : c.state.accepted = m → (∀ t ∈ c.tasks, t.inProgress = false) → c.state.flags.disposed.isSome

/-- When the last fire disposes the observer, all fires are still taken and nobody else has one in hand. -/
def lastFire (P : Policy) (o : Obs) (t : Task) (_ : Act) (others : Multiset Task) : Prop :=
  ∀ m ∈ P.maxFires, t = .finish m → o.flags.disposed = none → o.fires = m ∧ ∀ u ∈ others, u.fires = 0

instance (P : Policy) (o : Obs) (t : Task) (a : Act) (others : Multiset Task) : Decidable (lastFire P o t a others) :=
  inferInstanceAs (Decidable (∀ m ∈ P.maxFires, _))

/-! ### All fires accepted -/

/-- With all fires taken, the call that is to dispose the observer or to give one of them back. -/
def Task.seesTo (m : Nat) : Task → Bool
  | .flow _ fired | .finish fired => fired = m
  | .giveBack _ => true
  | _ => false

theorem Task.seesTo_inProgress (h : t.seesTo m = true) : t.inProgress = true := by
  cases t <;> first | rfl | cases h

theorem Passes.seesTo {news : List Task} (hm : P.maxFires = some m) (h : Passes P o t news) (ht : t.seesTo m = true) :
    ∃ u ∈ news, u.seesTo m = true := by
  cases h with
  | refused entry fired reason => exact ⟨.giveBack reason, List.mem_singleton_self _, rfl⟩
  | goOn fired hfired =>
    rw [of_decide_eq_true ht] at hfired
    exact absurd hm hfired
  | _ => cases ht

theorem Updates.seesTo {flags : Flags} (h : Updates P o t flags) (ht : t.seesTo m = true) : flags.disposed.isSome := by
  cases h with
  | finish =>
    split
    · rfl
    · rename_i hsome
      exact Option.isSome_iff_ne_none.mpr hsome
  | _ => cases ht

theorem Moves.seesTo (hm : P.maxFires = some m) (hb : o.Bounded P) (h : Moves P o t next)
    (hcovered : (o.fires ≠ m ∨ o.flags.disposed.isSome) ∨ t.seesTo m = true) :
    (next.1.fires ≠ m ∨ next.1.flags.disposed.isSome) ∨ ∃ u ∈ next.2.1, u.seesTo m = true := by
  cases h with
  | pass h => exact hcovered.imp_right (h.seesTo hm)
  | take entry hlt =>
    rcases eq_or_ne (o.fires + 1) m with heq | hne
    · exact .inr ⟨.flow entry (o.fires + 1), List.mem_singleton_self _, decide_eq_true heq⟩
    · exact .inl (.inl hne)
  | slot fired | ownSlot fired => exact hcovered.imp_right fun ht => ⟨.finish fired, by simp, ht⟩
  | enqueue fired => exact hcovered.imp_right fun ht => ⟨.finish fired, List.mem_singleton_self _, ht⟩
  | giveBack reason =>
    have hle := hb.fires m hm
    have hpos := P.fires_pos m hm
    exact .inl (.inl (by dsimp only; omega))
  | update h =>
    rcases hcovered with (hfires | hdisposed) | ht
    · exact .inl (.inl hfires)
    · exact .inl (.inr (h.mono.2 hdisposed))
    · exact .inl (.inr (h.seesTo ht))
  | next | release =>
    rw [Obs.nextQueued_fires, Obs.nextQueued_flags]
    exact hcovered.imp_right fun ht => nomatch ht
  | drop | invoke | deliver | unsent | undelivered | unslot | dropQueue | countDropped =>
    exact hcovered.imp_right fun ht => nomatch ht

/-- While all fires are taken and the observer lives, some call sees to it. -/
theorem lastFire_seen (hm : P.maxFires = some m) (h : ((pool P).system .new).Reachable c) :
    (c.state.fires ≠ m ∨ c.state.flags.disposed.isSome) ∨ ∃ t ∈ c.tasks, t.seesTo m = true := by
  have hkept : (pool P).Kept (Obs.Bounded P) fun _ _ => True :=
    { start := fun _ _ => trivial
      exec := fun hb _ ⟨_, h⟩ => ⟨(step_moves h).bounded hb, fun _ _ => trivial⟩
      stable := fun _ _ _ _ => trivial }
  have hcovered : (pool P).Covered (Obs.Bounded P) (fun _ _ => True)
      (fun o (_ : Unit) => o.fires ≠ m ∨ o.flags.disposed.isSome) (fun _ t _ => t.seesTo m = true) :=
    { exec := fun hb _ ⟨_, h⟩ => (step_moves h).seesTo hm hb
      stable := fun _ _ _ _ ht => .inr (.inl ht) }
  have hpos := P.fires_pos m hm
  exact hcovered.reachable hkept bounded_new (fun _ => .inl hpos.ne) h ()

/-- Once `max_fires` activations were accepted and no call is in progress, the observer is disposed. -/
theorem reached_disposed (hm : P.maxFires = some m) (h : ((pool P).system .new).Reachable c)
    (haccepted : c.state.accepted = m) (hidle : ∀ t ∈ c.tasks, t.inProgress = false) :
    c.state.flags.disposed.isSome := by
  have hle := (bounded h).fires m hm
  have hfires := fires_eq h
  rcases lastFire_seen hm h with (hne | hdisposed) | ⟨t, ht, hsees⟩
  · exact absurd (by omega) hne
  · exact hdisposed
  · have hbusy := Task.seesTo_inProgress hsees
    rw [hidle t ht] at hbusy
    cases hbusy

/-! ### Disposed by the last fire -/

theorem Moves.accepted_le (h : Moves P o t next) : o.accepted ≤ next.1.accepted := by
  cases h with
  | slot | ownSlot | enqueue => exact Nat.le_succ _
  | next | release => rw [Obs.nextQueued_accepted]
  | _ => exact le_rfl

theorem Moves.dispose_other (h : Moves P o t next) : .dispose .maxFires ∉ next.2.1 := by
  cases h with
  | pass h => cases h <;> simp
  | update h =>
    unfold Obs.update
    dsimp only
    split <;> simp
  | next | release =>
    unfold Obs.nextQueued
    split <;> simp
  | _ => simp [Obs.drop]

/-- Only `activate` and `owner_call` dispose for `MAX_FIRES`. -/
theorem dispose_other (h : ((pool P).system .new).Reachable c) : ∀ t ∈ c.tasks, t ≠ .dispose .maxFires := by
  have hkept : (pool P).Kept (fun _ => True) fun _ t => t ≠ .dispose .maxFires :=
    { start := by
        rintro _ t - ht rfl
        cases ht
      exec := fun _ _ ⟨_, h⟩ => ⟨trivial, fun u hu heq => (step_moves h).dispose_other (heq ▸ hu)⟩
      stable := fun _ _ hu _ => hu }
  exact (hkept.reachable trivial h).2

theorem Updates.maxFires {flags : Flags} (h : Updates P o t flags) (ht : t ≠ .dispose .maxFires)
    (hflags : flags.disposed = some .maxFires) :
    o.flags.disposed = some .maxFires ∨ o.flags.disposed = none ∧ ∃ m, P.maxFires = some m ∧ t = .finish m := by
  cases h with
  | ready => exact .inl hflags
  | fail =>
    split at hflags <;> exact .inl hflags
  | finish m hm =>
    split at hflags
    · rename_i hnone
      exact .inr ⟨hnone, m, hm, rfl⟩
    · exact .inl hflags
  | dispose code =>
    split at hflags
    · exact absurd (congrArg Task.dispose (Option.some.inj hflags)) ht
    · exact .inl hflags

/-- The step with which the observer is disposed for `MAX_FIRES`. -/
theorem Moves.maxFires (h : Moves P o t next) (ht : t ≠ .dispose .maxFires)
    (hflags : next.1.flags.disposed = some .maxFires) :
    o.flags.disposed = some .maxFires ∨
      o.flags.disposed = none ∧ next.1.accepted = o.accepted ∧ ∃ m, P.maxFires = some m ∧ t = .finish m := by
  cases h with
  | update h => exact (h.maxFires ht hflags).imp_right fun ⟨hnone, hfinish⟩ => ⟨hnone, rfl, hfinish⟩
  | next | release =>
    rw [Obs.nextQueued_flags] at hflags
    exact .inl hflags
  | _ => exact .inl hflags

theorem Moves.finish (hm : P.maxFires = some m) (hlive : o.flags.disposed = none) (h : Moves P o (.finish m) next) :
    next.1.accepted = o.accepted ∧ next.1.flags.disposed = some .maxFires := by
  cases h with
  | pass h =>
    cases h with
    | goOn _ hother => exact absurd hm hother
  | update h =>
    cases h with
    | finish => exact ⟨rfl, by simp [Obs.update, hlive]⟩

theorem sum_fires_eq_zero {ts : Multiset Task} : (ts.map Task.fires).sum = 0 ↔ ∀ t ∈ ts, t.fires = 0 := by
  rw [Multiset.sum_eq_zero_iff]
  simp

/-- What is accepted when the last fire is about to dispose the observer. -/
theorem lastFire_iff (hm : P.maxFires = some m) {ts : Multiset Task} {a : Act}
    (h : ((pool P).system .new).Reachable ⟨o, .finish m ::ₘ ts⟩) (hlive : o.flags.disposed = none) :
    lastFire P o (.finish m) a ts ↔ o.accepted = m := by
  have hle := (bounded h).fires m hm
  have hfires := fires_eq h
  rw [Multiset.map_cons, Multiset.sum_cons] at hfires
  dsimp only [Task.fires] at hle hfires
  constructor
  · intro hlast
    obtain ⟨hall, hothers⟩ := hlast m hm rfl hlive
    rw [← sum_fires_eq_zero] at hothers
    omega
  · intro haccepted m' hm' _ _
    obtain rfl : m = m' := Option.some.inj (hm.symm.trans hm')
    rw [← sum_fires_eq_zero]
    omega

theorem disposed_exactly (hm : P.maxFires = some m) (h : ((pool P).guarded (lastFire P) .new).Reachable c)
    (hdisposed : c.state.flags.disposed = some .maxFires) : c.state.accepted = m := by
  refine System.Reachable.invariant
    (I := fun c => c.state.flags.disposed = some .maxFires → c.state.accepted = m) ?_ ?_ h hdisposed
  · rintro _ rfl hnew
    cases hnew
  · intro c c' hreach hexact hstep hdisposed
    have hafter := Pool.guarded_reachable (System.Reachable.step hreach hstep)
    cases hstep with
    | start ts _ => exact hexact hdisposed
    | exec ts hguard hexec =>
      obtain ⟨_, hexec⟩ := hexec
      have hbefore := Pool.guarded_reachable hreach
      have hmove := step_moves hexec
      rcases hmove.maxFires (dispose_other hbefore _ (Multiset.mem_cons_self _ _)) hdisposed with
        hold | ⟨hlive, haccepted, m', hm', rfl⟩
      · have hle := (bounded hafter).fires m hm
        rw [fires_eq hafter] at hle
        have hgrows := hmove.accepted_le
        have hm := hexact hold
        dsimp only at *
        omega
      · obtain rfl : m = m' := Option.some.inj (hm.symm.trans hm')
        exact haccepted.trans ((lastFire_iff hm hbefore hlive).mp hguard)

/-- **`max_fires` means `max_fires`**, in the runs in which the last fire disposes the observer with no other fire in
hand. The first disposal by the last fire at which one is still in hand leaves an observer that is disposed for
`MAX_FIRES` with fewer activations accepted. -/
theorem maxFires_exact (P : Policy) (m : Nat) (hm : P.maxFires = some m) :
    (∀ c, ((pool P).guarded (lastFire P) .new).Reachable c → Exact m c) ∧
      ∀ o a ts, ((pool P).system .new).Reachable ⟨o, .finish m ::ₘ ts⟩ → o.flags.disposed = none →
        ∀ next, step P o (.finish m) a = some next →
          (Exact m ⟨next.1, ↑next.2.1 + ts⟩ ↔ lastFire P o (.finish m) a ts) := by
  refine ⟨fun c h => ⟨disposed_exactly hm h, reached_disposed hm (Pool.guarded_reachable h)⟩, ?_⟩
  intro o a ts h hlive next hnext
  rw [lastFire_iff hm h hlive]
  obtain ⟨haccepted, hdisposed⟩ := (step_moves hnext).finish hm hlive
  refine ⟨fun hexact => haccepted ▸ hexact.exactly hdisposed, fun hall => ⟨fun _ => haccepted.trans hall, fun _ _ => ?_⟩⟩
  exact Option.isSome_of_eq_some hdisposed

/-- One activation of one. -/
theorem maxFires_exact_once : ∃ c, ((pool once).guarded (lastFire once) .new).Reachable c ∧
    c.state.flags.disposed = some .maxFires ∧ c.state.accepted = 1 := by
  have hrun := play_guarded once (fun o t a ts => decide (lastFire once o t a ↑ts)) (activated ++ [.exec 1 .go]) (fun _ _ _ _ => of_decide_eq_true) rfl
  exact ⟨_, hrun, rfl, ((maxFires_exact once 1 rfl).1 _ hrun).exactly rfl⟩

/-- Two fires, one slot and no queue. -/
def twice : Policy := ⟨some 2, false, 1, 0, by simp, once.inFlight_pos⟩

/-- Two owners' deliveries: one takes the first fire; the other takes the last and the slot; the first is refused,
and the second disposes the observer and ends. -/
def refused : List (Pool.Turn Task Act) :=
  [.start (.ready true), .exec 0 .go, .start (.enter .owner), .exec 0 .go, .exec 0 .go, .exec 0 .go, .exec 0 .go,
    .start (.enter .owner), .exec 0 .go, .exec 0 .go, .exec 0 .go, .exec 0 .go, .exec 0 .go, .exec 2 .go, .exec 0 .go,
    .exec 0 .go, .exec 1 .go, .exec 0 .go, .exec 0 .go, .exec 0 .go, .exec 0 .go]

theorem maxFires_not_exact : ¬ ∀ c, ((pool twice).system .new).Reachable c → Exact 2 c := by
  intro h
  have hexact := (h _ (play_reachable twice refused rfl)).exactly rfl
  exact absurd hexact (by decide)

end Iii.Dispatch
