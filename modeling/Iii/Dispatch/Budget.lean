import Iii.Dispatch.Payload
import Mathlib.Algebra.BigOperators.Group.Finset.Basic

/-! The byte budget of the observers' queues (`QueueBudget`, `observer/dispatch.rs`).

An event is charged once, however many queues hold it, and its counter says which queue is the first and which the
last. The counter and the bytes are apart: a charge counts first and takes the bytes later, a release counts down first
and gives the bytes back later, and a new charge of the same event may take them again in between. So at every moment
the bytes are those of the events that count as charged, and of those that a release still has to give back
(`Exact.bytes`). Where nothing is in progress that is the events in the queues (`budget_exact`). -/
namespace Iii.Dispatch.Budget
open Lib

/-! ### Costs -/

mutual
/-- What holding the value costs, roughly. -/
def approxSize : Value → Nat
  | .null | .bool _ | .number _ => 16
  | .string s => 24 + s.utf8ByteSize
  | .array items => 24 + approxSizes items
  | .object map => 24 + approxMembers map
def approxSizes : List Value → Nat
  | [] => 0
  | value :: rest => approxSize value + approxSizes rest
def approxMembers : List (String × Value) → Nat
  | [] => 0
  | (key, value) :: rest => 24 + key.utf8ByteSize + approxSize value + approxMembers rest
end

def EVENT_OVERHEAD : Nat := 256

/-- A completed invocation with the texts of its trace. -/
structure Event where
  completed : Payload.Completed
  traceparent : Option String
  baggage : Option String

def Event.cost (event : Event) : Nat :=
  let completed := event.completed
  let payloads := (([completed.input, completed.output, completed.error, completed.caller,
    completed.metadata].filterMap id).map approxSize).sum
  let text := (([event.traceparent, event.baggage].filterMap id).map String.utf8ByteSize).sum
  EVENT_OVERHEAD + completed.namespaceId.utf8ByteSize + completed.functionId.utf8ByteSize +
    completed.invocationId.utf8ByteSize + text + payloads

/-! ### Charges and releases, one atomic operation at a time -/

/-- Where a charge is: what it does next. -/
inductive Phase where
  /-- Count the queue. -/
  | entered
  /-- It is the first: take the bytes, if they fit. -/
  | first
  /-- Store the cost. -/
  | updated (fits : Bool)
  /-- They did not fit: count the queue down again. -/
  | refused
  /-- Put the event in the queue. -/
  | granted
deriving DecidableEq

inductive ReleasePhase where
  /-- Count the queue down. -/
  | starting
  /-- It was the last: read the cost. -/
  | last
  /-- Give the bytes back. -/
  | loaded (cost : Nat)
deriving DecidableEq

/-- The counters, the entries of the queues, and what is in progress. One task at a time charges an event, any number
release it. `underflow` is set for good when something larger is subtracted than is there. -/
structure State (Q E : Type) where
  bytes : Nat
  queues : E → Nat
  charged : E → Nat
  charging : E → Option (Q × Phase)
  held : Multiset (Q × E)
  releasing : Multiset (E × ReleasePhase)
  underflow : Bool

variable {Q E : Type} [DecidableEq E]

def State.new : State Q E := ⟨0, fun _ => 0, fun _ => 0, fun _ => none, 0, 0, false⟩

/-- The charge of `e` goes on there, or ends. -/
def State.goTo (s : State Q E) (e : E) (next : Option (Q × Phase)) : State Q E :=
  { s with charging := Function.update s.charging e next }

def State.setQueues (s : State Q E) (e : E) (n : Nat) : State Q E := { s with queues := Function.update s.queues e n }

section Step
variable (limit : Nat) (event : E → Event)

/-- The next operation of `charge`, and the push that follows it under the same lock. -/
def State.chargeNext (s : State Q E) (q : Q) (e : E) : Phase → State Q E
  | .entered =>
    (s.setQueues e (s.queues e + 1)).goTo e (some (q, if 0 < s.queues e then .granted else .first))
  | .first =>
    if s.bytes + (event e).cost ≤ limit then
      { s with bytes := s.bytes + (event e).cost }.goTo e (some (q, .updated true))
    else s.goTo e (some (q, .updated false))
  | .updated fits =>
    { s with charged := Function.update s.charged e (event e).cost }.goTo e
      (some (q, if fits then .granted else .refused))
  | .refused =>
    { s.setQueues e (s.queues e - 1) with underflow := s.underflow || s.queues e < 1 }.goTo e none
  | .granted => { s with held := (q, e) ::ₘ s.held }.goTo e none

/-- The next operation of `release`, with the other releases. -/
def State.releaseNext (s : State Q E) (e : E) (others : Multiset (E × ReleasePhase)) : ReleasePhase → State Q E
  | .starting =>
    { s.setQueues e (s.queues e - 1) with
      releasing := if s.queues e ≠ 1 then others else (e, .last) ::ₘ others
      underflow := s.underflow || s.queues e < 1 }
  | .last => { s with releasing := (e, .loaded (s.charged e)) ::ₘ others }
  | .loaded cost =>
    { s with
      bytes := s.bytes - cost
      releasing := others
      underflow := s.underflow || s.bytes < cost }

inductive Step : State Q E → State Q E → Prop where
  | charge {s : State Q E} (q : Q) {e : E} (h : s.charging e = none) :
      Step s (s.goTo e (some (q, .entered)))
  | charging {s : State Q E} {q : Q} {e : E} {phase : Phase} (h : s.charging e = some (q, phase)) :
      Step s (s.chargeNext limit event q e phase)
  | release {s : State Q E} {q : Q} {e : E} {held : Multiset (Q × E)} (h : s.held = (q, e) ::ₘ held) :
      Step s { s with held := held, releasing := (e, .starting) ::ₘ s.releasing }
  | releasing {s : State Q E} {e : E} {phase : ReleasePhase} {others : Multiset (E × ReleasePhase)}
      (h : s.releasing = (e, phase) ::ₘ others) : Step s (s.releaseNext e others phase)

def system : System (State Q E) where
  Init := fun s => s = .new
  Step := Step limit event

end Step

/-! ### The invariant -/

/-- The queue that is being charged is counted. -/
def Phase.counts : Phase → Nat
  | .entered => 0
  | _ => 1

/-- The event was counted from nothing, and that is all its counter says. -/
def Phase.alone : Phase → Bool
  | .first | .updated _ | .refused => true
  | _ => false

/-- The counter is ahead of the bytes. -/
def Phase.ahead : Phase → Bool
  | .first | .updated false | .refused => true
  | _ => false

namespace State
variable (s : State Q E) (e : E)

def phase : Option Phase := (s.charging e).map (·.2)

/-- The queue entries of the event. -/
def holders : Nat := s.held.countP (·.2 = e)

/-- The releases that have not counted down. -/
def leaving : Nat := s.releasing.count (e, .starting)

/-- The bytes of the event are taken, apart from those that a release gives back. -/
def Counted : Prop := 0 < s.queues e ∧ (s.phase e).all (!·.ahead)

@[simp] theorem phase_goTo (next : Option (Q × Phase)) : (s.goTo e next).phase e = next.map (·.2) := by
  show Option.map _ (Function.update s.charging e next e) = _
  rw [Function.update_self]

@[simp] theorem queues_goTo (next : Option (Q × Phase)) : (s.goTo e next).queues = s.queues := rfl

@[simp] theorem holders_goTo (next : Option (Q × Phase)) : (s.goTo e next).holders = s.holders := rfl

@[simp] theorem leaving_goTo (next : Option (Q × Phase)) : (s.goTo e next).leaving = s.leaving := rfl

@[simp] theorem queues_setQueues (n : Nat) : (s.setQueues e n).queues e = n := Function.update_self ..

/-- Nothing is in progress. -/
def Quiet : Prop := (∀ e, s.charging e = none) ∧ s.releasing = 0

end State

/-- What a release has to give back. -/
def owed (event : E → Event) : E × ReleasePhase → Nat
  | (_, .starting) => 0
  | (e, _) => (event e).cost

/-- What is so of each event. -/
structure State.Sound (event : E → Event) (s : State Q E) (e : E) : Prop where
  counter : s.queues e = s.holders e + ((s.phase e).elim 0 Phase.counts) + s.leaving e
  alone : (s.phase e).any Phase.alone → s.holders e = 0 ∧ s.leaving e = 0
  charged : s.Counted e → s.phase e ≠ some (.updated true) → s.charged e = (event e).cost
  last : (e, .last) ∈ s.releasing → s.charged e = (event e).cost
  loaded : ∀ cost, (e, .loaded cost) ∈ s.releasing → cost = (event e).cost

/-- `total` is the cost of the events that count. -/
def State.Charges (event : E → Event) (s : State Q E) (total : Nat) : Prop :=
  ∃ active : Finset E, (∀ e, e ∈ active ↔ s.Counted e) ∧ total = ∑ e ∈ active, (event e).cost

/-- The bytes are those of the events that count, and of those that a release has to give back. -/
structure State.Exact (limit : Nat) (event : E → Event) (s : State Q E) : Prop where
  events : ∀ e, s.Sound event e
  bytes : ∃ total, s.Charges event total ∧ s.bytes = total + (s.releasing.map (owed event)).sum
  le_limit : s.bytes ≤ limit
  underflow : s.underflow = false

section Keep
variable {limit : Nat} {event : E → Event} {s s' : State Q E} {e : E}

/-- A step at one event leaves what is so of another. -/
structure State.Same (s s' : State Q E) (e : E) : Prop where
  queues : s'.queues e = s.queues e
  charged : s'.charged e = s.charged e
  charging : s'.charging e = s.charging e
  holders : s'.holders e = s.holders e
  releasing : ∀ phase, s'.releasing.count (e, phase) = s.releasing.count (e, phase)

namespace State.Same

theorem goTo {s₁ : State Q E} {e' : E} (h : s.Same s₁ e') (he' : e' ≠ e) (next : Option (Q × Phase)) :
    s.Same (s₁.goTo e next) e' :=
  { h with charging := (Function.update_of_ne he' _ _).trans h.charging }

theorem refl (s : State Q E) (e : E) : s.Same s e := ⟨rfl, rfl, rfl, rfl, fun _ => rfl⟩

theorem setQueues (s : State Q E) {e' : E} (h : e' ≠ e) (n : Nat) : s.Same (s.setQueues e n) e' where
  queues := Function.update_of_ne h _ _
  charged := rfl
  charging := rfl
  holders := rfl
  releasing := fun _ => rfl

theorem phase (h : s.Same s' e) : s'.phase e = s.phase e := congrArg (Option.map _) h.charging

theorem counted (h : s.Same s' e) : s'.Counted e ↔ s.Counted e := by
  rw [Counted, Counted, h.queues, h.phase]

theorem mem (h : s.Same s' e) (phase : ReleasePhase) : (e, phase) ∈ s'.releasing ↔ (e, phase) ∈ s.releasing := by
  rw [← Multiset.count_pos, ← Multiset.count_pos, h.releasing]

theorem sound (h : s.Same s' e) (hs : s.Sound event e) : s'.Sound event e where
  counter := by rw [h.queues, h.holders, h.phase, leaving, h.releasing, ← leaving, ← hs.counter]
  alone := by rw [h.phase, h.holders, leaving, h.releasing, ← leaving]; exact hs.alone
  charged := by rw [h.counted, h.phase, h.charged]; exact hs.charged
  last := by rw [h.mem, h.charged]; exact hs.last
  loaded := fun cost => by rw [h.mem]; exact hs.loaded cost

end State.Same

namespace State.Charges
variable {total : Nat}

omit [DecidableEq E] in
theorem congr (h : s.Charges event total) (hsame : ∀ e, s'.Counted e ↔ s.Counted e) : s'.Charges event total := by
  obtain ⟨active, hactive, htotal⟩ := h
  exact ⟨active, fun e => (hactive e).trans (hsame e).symm, htotal⟩

/-- The event is charged. -/
theorem insert (h : s.Charges event total) (hothers : ∀ e' ≠ e, s.Same s' e') (hbefore : ¬ s.Counted e)
    (hafter : s'.Counted e) : s'.Charges event (total + (event e).cost) := by
  obtain ⟨active, hactive, rfl⟩ := h
  have hfresh : e ∉ active := fun hmem => hbefore ((hactive e).mp hmem)
  refine ⟨Insert.insert e active, fun e' => ?_, ?_⟩
  · rw [Finset.mem_insert]
    by_cases he : e' = e
    · subst he
      exact ⟨fun _ => hafter, fun _ => .inl rfl⟩
    · rw [(hothers e' he).counted, or_iff_right he, hactive]
  · rw [Finset.sum_insert hfresh, Nat.add_comm]

/-- The event is given back. -/
theorem erase (h : s.Charges event total) (hothers : ∀ e' ≠ e, s.Same s' e') (hbefore : s.Counted e)
    (hafter : ¬ s'.Counted e) : ∃ rest, s'.Charges event rest ∧ total = rest + (event e).cost := by
  obtain ⟨active, hactive, rfl⟩ := h
  refine ⟨_, ⟨active.erase e, fun e' => ?_, rfl⟩, ?_⟩
  · rw [Finset.mem_erase]
    by_cases he : e' = e
    · subst he
      exact ⟨fun h => absurd rfl h.1, fun h => absurd h hafter⟩
    · rw [(hothers e' he).counted, and_iff_right he, hactive]
  · exact (Finset.sum_erase_add _ _ ((hactive e).mpr hbefore)).symm

end State.Charges

theorem events_of_same (h : s.Exact limit event) (hothers : ∀ e' ≠ e, s.Same s' e') (he : s'.Sound event e) :
    ∀ e', s'.Sound event e' := by
  intro e'
  by_cases heq : e' = e
  · subst heq
    exact he
  · exact (hothers e' heq).sound (h.events e')

theorem counted_of_same (hothers : ∀ e' ≠ e, s.Same s' e') (he : s'.Counted e ↔ s.Counted e) :
    ∀ e', s'.Counted e' ↔ s.Counted e' := by
  intro e'
  by_cases heq : e' = e
  · subst heq
    exact he
  · exact (hothers e' heq).counted

end Keep

/-! ### What one step keeps -/

section Steps
variable {limit : Nat} {event : E → Event} {s s' : State Q E} {q : Q} {e : E}

theorem exact_new : (State.new : State Q E).Exact limit event where
  events := fun e =>
    { counter := by simp [State.new, State.holders, State.phase, State.leaving]
      alone := by simp [State.new, State.phase]
      charged := fun h => absurd h.1 (Nat.lt_irrefl 0)
      last := fun h => absurd h (Multiset.notMem_zero _)
      loaded := fun cost h => absurd h (Multiset.notMem_zero _) }
  bytes := ⟨0, ⟨∅, fun e => ⟨fun h => absurd h (Finset.notMem_empty e), fun h => absurd h.1 (Nat.lt_irrefl 0)⟩, rfl⟩, rfl⟩
  le_limit := Nat.zero_le _
  underflow := rfl

/-- A step that charges nothing and gives nothing back. -/
theorem State.Exact.same (h : s.Exact limit event) (hothers : ∀ e' ≠ e, s.Same s' e') (he : s'.Sound event e)
    (hcounted : s'.Counted e ↔ s.Counted e) (hbytes : s'.bytes = s.bytes)
    (howed : (s'.releasing.map (owed event)).sum = (s.releasing.map (owed event)).sum)
    (hunderflow : s'.underflow = s.underflow) : s'.Exact limit event := by
  obtain ⟨total, htotal, hsum⟩ := h.bytes
  exact ⟨events_of_same h hothers he, ⟨total, htotal.congr (counted_of_same hothers hcounted), by rw [hbytes, howed, hsum]⟩,
    hbytes ▸ h.le_limit, hunderflow.trans h.underflow⟩

omit [DecidableEq E] in
theorem phase_eq {phase : Phase} (h : s.charging e = some (q, phase)) : s.phase e = some phase := by
  rw [State.phase, h]
  rfl

namespace State.Exact

theorem charge (h : s.Exact limit event) (hnone : s.charging e = none) (q : Q) :
    (s.goTo e (some (q, .entered))).Exact limit event := by
  have hphase : s.phase e = none := by rw [phase, hnone]; rfl
  obtain ⟨counter, -, charged, last, loaded⟩ := h.events e
  simp only [Counted, hphase] at counter charged
  refine h.same (fun e' he' => (Same.refl s e').goTo he' _) ⟨?_, ?_, ?_, last, loaded⟩ ?_ rfl rfl rfl
  · simpa [Phase.counts] using counter
  · simp [Phase.alone]
  · exact fun hc _ => charged ⟨hc.1, rfl⟩ (fun h => nomatch h)
  · simp [Counted, hphase, Phase.ahead]

theorem entered (h : s.Exact limit event) (hphase : s.phase e = some .entered) (q : Q) :
    (s.chargeNext limit event q e .entered).Exact limit event := by
  obtain ⟨counter, -, charged, last, loaded⟩ := h.events e
  simp only [Counted, hphase, Option.elim_some, Phase.counts] at counter charged
  have hothers : ∀ e' ≠ e, s.Same (s.chargeNext limit event q e .entered) e' := fun e' he' =>
    (Same.setQueues s he' _).goTo he' _
  by_cases hpos : 0 < s.queues e
  · refine h.same hothers ⟨?_, ?_, ?_, last, loaded⟩ ?_ rfl rfl rfl
    · simp only [chargeNext, queues_goTo, queues_setQueues, phase_goTo, if_pos hpos, Option.map_some, Option.elim_some,
        Phase.counts]
      show _ = s.holders e + 1 + s.leaving e
      omega
    · simp [chargeNext, if_pos hpos, Phase.alone]
    · exact fun _ _ => charged ⟨hpos, rfl⟩ (by decide)
    · simp [chargeNext, Counted, hphase, hpos, Phase.ahead]
  · have hzero : s.queues e = 0 := Nat.eq_zero_of_not_pos hpos
    refine h.same hothers ⟨?_, ?_, ?_, last, loaded⟩ ?_ rfl rfl rfl
    · simp only [chargeNext, queues_goTo, queues_setQueues, phase_goTo, if_neg hpos, Option.map_some, Option.elim_some,
        Phase.counts]
      show _ = s.holders e + 1 + s.leaving e
      omega
    · intro _
      show s.holders e = 0 ∧ s.leaving e = 0
      omega
    · intro hc _
      simp [chargeNext, Counted, if_neg hpos, Phase.ahead] at hc
    · simp [chargeNext, Counted, hphase, hzero, Phase.ahead]

theorem first (h : s.Exact limit event) (hphase : s.phase e = some .first) (q : Q) :
    (s.chargeNext limit event q e .first).Exact limit event := by
  have he := h.events e
  obtain ⟨counter, alone, -, last, loaded⟩ := he
  simp only [hphase, Option.elim_some, Phase.counts] at counter alone
  have hbefore : ¬ s.Counted e := by simp [Counted, hphase, Phase.ahead]
  rw [chargeNext]
  split
  · next hfits =>
    have hothers : ∀ e' ≠ e, s.Same
        ({ s with bytes := s.bytes + (event e).cost }.goTo e (some (q, .updated true))) e' := fun e' he' =>
      { (Same.refl s e').goTo he' (some (q, .updated true)) with }
    obtain ⟨total, htotal, hsum⟩ := h.bytes
    have hafter : ({ s with bytes := s.bytes + (event e).cost }.goTo e (some (q, .updated true))).Counted e := by
      refine ⟨?_, by simp [Phase.ahead]⟩
      show 0 < s.queues e
      omega
    refine ⟨events_of_same h hothers ⟨?_, ?_, ?_, last, loaded⟩, ⟨_, htotal.insert hothers hbefore hafter, ?_⟩, hfits,
      h.underflow⟩
    · rw [phase_goTo]
      exact counter
    · exact fun _ => alone rfl
    · intro _ hne
      simp at hne
    · show s.bytes + (event e).cost = total + (event e).cost + (s.releasing.map (owed event)).sum
      omega
  · refine h.same (fun e' he' => (Same.refl s e').goTo he' _) ⟨?_, ?_, ?_, last, loaded⟩ ?_ rfl rfl rfl
    · simpa [Phase.counts] using counter
    · exact fun _ => alone rfl
    · intro hc _
      simp [Counted, Phase.ahead] at hc
    · simp [Counted, hphase, Phase.ahead]

theorem updated (h : s.Exact limit event) {fits : Bool} (hphase : s.phase e = some (.updated fits)) (q : Q) :
    (s.chargeNext limit event q e (.updated fits)).Exact limit event := by
  obtain ⟨counter, alone, -, -, loaded⟩ := h.events e
  simp only [hphase, Option.elim_some, Phase.counts] at counter alone
  have hcost : (s.chargeNext limit event q e (.updated fits)).charged e = (event e).cost := Function.update_self ..
  have hothers : ∀ e' ≠ e, s.Same (s.chargeNext limit event q e (.updated fits)) e' := fun e' he' =>
    { (Same.refl s e').goTo he' (some (q, if fits then .granted else .refused)) with
      charged := Function.update_of_ne he' _ _ }
  refine h.same hothers ⟨?_, ?_, fun _ _ => hcost, fun _ => hcost, loaded⟩ ?_ rfl rfl rfl
  · simp only [chargeNext, phase_goTo]
    cases fits <;> exact counter
  · exact fun _ => alone rfl
  · cases fits <;> simp [chargeNext, Counted, hphase, Phase.ahead]

theorem refused (h : s.Exact limit event) (hphase : s.phase e = some .refused) (q : Q) :
    (s.chargeNext limit event q e .refused).Exact limit event := by
  obtain ⟨counter, alone, -, last, loaded⟩ := h.events e
  simp only [hphase, Option.elim_some, Phase.counts] at counter alone
  obtain ⟨hholders, hleaving⟩ := alone rfl
  have hone : s.queues e = 1 := by omega
  have hothers : ∀ e' ≠ e, s.Same (s.chargeNext limit event q e .refused) e' := fun e' he' =>
    { (Same.setQueues s he' (s.queues e - 1)).goTo he' none with }
  refine h.same hothers ⟨?_, ?_, ?_, last, loaded⟩ ?_ rfl rfl ?_
  · simp only [chargeNext, queues_goTo, queues_setQueues, phase_goTo, hone]
    show 0 = s.holders e + 0 + s.leaving e
    omega
  · simp [chargeNext]
  · intro hc _
    simp [chargeNext, Counted, hone] at hc
  · simp [chargeNext, Counted, hphase, hone, Phase.ahead]
  · show (s.underflow || decide (s.queues e < 1)) = s.underflow
    simp [hone]

theorem granted (h : s.Exact limit event) (hphase : s.phase e = some .granted) (q : Q) :
    (s.chargeNext limit event q e .granted).Exact limit event := by
  obtain ⟨counter, -, charged, last, loaded⟩ := h.events e
  simp only [Counted, hphase, Option.elim_some, Phase.counts] at counter charged
  have hholders : (s.chargeNext limit event q e .granted).holders e = s.holders e + 1 :=
    Multiset.countP_cons_of_pos _ rfl
  have hothers : ∀ e' ≠ e, s.Same (s.chargeNext limit event q e .granted) e' := fun e' he' =>
    { (Same.refl s e').goTo he' none with holders := Multiset.countP_cons_of_neg _ (Ne.symm he') }
  refine h.same hothers ⟨?_, ?_, ?_, last, loaded⟩ ?_ rfl rfl rfl
  · rw [hholders]
    simp only [chargeNext, queues_goTo, phase_goTo]
    show s.queues e = s.holders e + 1 + 0 + s.leaving e
    omega
  · simp [chargeNext]
  · exact fun hc _ => charged ⟨hc.1, rfl⟩ (by decide)
  · simp [chargeNext, Counted, hphase, Phase.ahead]

theorem release (h : s.Exact limit event) {held : Multiset (Q × E)} (hheld : s.held = (q, e) ::ₘ held) :
    ({ s with held := held, releasing := (e, .starting) ::ₘ s.releasing } : State Q E).Exact limit event := by
  obtain ⟨counter, alone, charged, last, loaded⟩ := h.events e
  have hholders : s.holders e = held.countP (·.2 = e) + 1 := by
    rw [holders, hheld]
    exact Multiset.countP_cons_of_pos (p := fun entry : Q × E => entry.2 = e) held rfl
  have hothers : ∀ e' ≠ e, s.Same { s with held := held, releasing := (e, .starting) ::ₘ s.releasing } e' := by
    intro e' he'
    refine ⟨rfl, rfl, rfl, ?_, fun phase => ?_⟩
    · rw [holders, holders, hheld]
      exact (Multiset.countP_cons_of_neg (p := fun entry : Q × E => entry.2 = e') held (Ne.symm he')).symm
    · exact Multiset.count_cons_of_ne (fun heq => he' (congrArg Prod.fst heq)) _
  refine h.same hothers ⟨?_, ?_, charged, ?_, ?_⟩ Iff.rfl rfl ?_ rfl
  · show s.queues e = held.countP (·.2 = e) + (s.phase e).elim 0 Phase.counts +
      ((e, ReleasePhase.starting) ::ₘ s.releasing).count (e, .starting)
    rw [Multiset.count_cons_self, counter, hholders, leaving]
    omega
  · intro halone
    have hnone := (alone halone).1
    omega
  · exact fun hmem => last ((Multiset.mem_cons.mp hmem).resolve_left (fun heq => nomatch heq))
  · exact fun cost hmem => loaded cost ((Multiset.mem_cons.mp hmem).resolve_left (fun heq => nomatch heq))
  · show (((e, ReleasePhase.starting) ::ₘ s.releasing).map (owed event)).sum = _
    rw [Multiset.map_cons, Multiset.sum_cons, owed, Nat.zero_add]

section Releasing
variable {others : Multiset (E × ReleasePhase)}

/-- A release of another event is where it was. -/
theorem count_others {phase : ReleasePhase} (h : s.releasing = (e, phase) ::ₘ others) {e' : E} (he' : e' ≠ e)
    (phase' : ReleasePhase) : others.count (e', phase') = s.releasing.count (e', phase') := by
  rw [h, Multiset.count_cons_of_ne fun heq => he' (congrArg Prod.fst heq)]

/-- The first operation, of a release that is not the last. -/
theorem starting_of_ne (h : s.Exact limit event) (hreleasing : s.releasing = (e, .starting) ::ₘ others)
    (hne : s.queues e ≠ 1) : (s.releaseNext e others .starting).Exact limit event := by
  obtain ⟨counter, alone, charged, last, loaded⟩ := h.events e
  have hleaving : s.leaving e = others.count (e, .starting) + 1 := by
    rw [leaving, hreleasing, Multiset.count_cons_self]
  have hnext : s.releaseNext e others .starting =
      { s.setQueues e (s.queues e - 1) with
        releasing := others, underflow := s.underflow || decide (s.queues e < 1) } := by
    rw [releaseNext, if_pos hne]
  have hpos : 2 ≤ s.queues e := by omega
  rw [hnext]
  have hothers : ∀ e' ≠ e, s.Same { s.setQueues e (s.queues e - 1) with
      releasing := others, underflow := s.underflow || decide (s.queues e < 1) } e' := fun e' he' =>
    { Same.setQueues s he' (s.queues e - 1) with releasing := fun phase => count_others hreleasing he' phase }
  have hcounted : State.Counted { s.setQueues e (s.queues e - 1) with
      releasing := others, underflow := s.underflow || decide (s.queues e < 1) } e ↔ s.Counted e := by
    rw [Counted, Counted]
    refine and_congr_left fun _ => ?_
    show 0 < (s.setQueues e (s.queues e - 1)).queues e ↔ _
    rw [queues_setQueues]
    omega
  have hmem : ∀ phase, (e, phase) ∈ others → (e, phase) ∈ s.releasing := fun phase hin => by
    rw [hreleasing]
    exact Multiset.mem_cons_of_mem hin
  refine h.same hothers ⟨?_, ?_, ?_, fun hin => last (hmem _ hin), fun cost hin => loaded cost (hmem _ hin)⟩ hcounted rfl ?_ ?_
  · show (s.setQueues e (s.queues e - 1)).queues e = s.holders e + (s.phase e).elim 0 Phase.counts +
      others.count (e, .starting)
    rw [queues_setQueues]
    omega
  · intro halone
    have hnone := (alone halone).2
    omega
  · exact fun hc hphase => charged (hcounted.mp hc) hphase
  · show (others.map (owed event)).sum = _
    rw [hreleasing, Multiset.map_cons, Multiset.sum_cons, owed, Nat.zero_add]
  · show (s.underflow || decide (s.queues e < 1)) = s.underflow
    rw [decide_eq_false (by omega), Bool.or_false]

/-- The first operation of the last release: the event does not count any more, and its bytes are to be given back. -/
theorem starting_of_one (h : s.Exact limit event) (hreleasing : s.releasing = (e, .starting) ::ₘ others)
    (hone : s.queues e = 1) : (s.releaseNext e others .starting).Exact limit event := by
  obtain ⟨counter, alone, charged, last, loaded⟩ := h.events e
  have hleaving : s.leaving e = others.count (e, .starting) + 1 := by
    rw [leaving, hreleasing, Multiset.count_cons_self]
  have hnext : s.releaseNext e others .starting =
      { s.setQueues e 0 with releasing := (e, .last) ::ₘ others } := by
    rw [releaseNext, if_neg (not_not.mpr hone), hone]
    simp [setQueues]
  rw [hnext]
  have hothers : ∀ e' ≠ e, s.Same { s.setQueues e 0 with releasing := (e, .last) ::ₘ others } e' := fun e' he' =>
    { Same.setQueues s he' 0 with
      releasing := fun phase =>
        (Multiset.count_cons_of_ne (fun heq => he' (congrArg Prod.fst heq)) _).trans (count_others hreleasing he' phase) }
  have hnotalone : ∀ phase, s.phase e = some phase → phase.alone = false := by
    intro phase hphase
    refine Bool.eq_false_iff.mpr fun halone => ?_
    have hnone := (alone (by rw [hphase]; exact halone)).2
    omega
  have hbefore : s.Counted e := by
    refine ⟨by omega, ?_⟩
    cases hphase : s.phase e with
    | none => rfl
    | some phase =>
      have hfalse := hnotalone phase hphase
      cases phase with
      | entered | granted => rfl
      | first | updated | refused => cases hfalse
  have hcost : s.charged e = (event e).cost := charged hbefore fun hphase => nomatch hnotalone _ hphase
  have hafter : ¬ State.Counted { s.setQueues e 0 with releasing := (e, .last) ::ₘ others } e := fun hc =>
    absurd hc.1 (by show ¬ 0 < (s.setQueues e 0).queues e; rw [queues_setQueues]; decide)
  obtain ⟨total, htotal, hsum⟩ := h.bytes
  obtain ⟨rest, hrest, rfl⟩ := htotal.erase hothers hbefore hafter
  refine ⟨events_of_same h hothers ⟨?_, ?_, fun hc => absurd hc hafter, fun _ => hcost, ?_⟩, ⟨rest, hrest, ?_⟩, h.le_limit,
    h.underflow⟩
  · show (s.setQueues e 0).queues e = s.holders e + (s.phase e).elim 0 Phase.counts +
      ((e, ReleasePhase.last) ::ₘ others).count (e, .starting)
    rw [queues_setQueues, Multiset.count_cons_of_ne (by simp)]
    omega
  · intro halone
    have hnone := (alone halone).2
    omega
  · intro cost hin
    have hin := (Multiset.mem_cons.mp hin).resolve_left (fun heq => nomatch heq)
    exact loaded cost (by rw [hreleasing]; exact Multiset.mem_cons_of_mem hin)
  · show s.bytes = rest + (((e, ReleasePhase.last) ::ₘ others).map (owed event)).sum
    rw [hreleasing, Multiset.map_cons, Multiset.sum_cons] at hsum
    rw [Multiset.map_cons, Multiset.sum_cons, hsum, owed, owed]
    · omega
    · exact fun heq => nomatch heq

/-- The cost that is read is the event's. -/
theorem last (h : s.Exact limit event) (hreleasing : s.releasing = (e, .last) ::ₘ others) :
    (s.releaseNext e others .last).Exact limit event := by
  obtain ⟨counter, alone, charged, last, loaded⟩ := h.events e
  have hcost : s.charged e = (event e).cost := last (by rw [hreleasing]; exact Multiset.mem_cons_self _ _)
  have hleaving : ((e, ReleasePhase.loaded (s.charged e)) ::ₘ others).count (e, .starting) = s.leaving e := by
    rw [leaving, hreleasing, Multiset.count_cons_of_ne (by simp), Multiset.count_cons_of_ne (by simp)]
  have hothers : ∀ e' ≠ e, s.Same (s.releaseNext e others .last) e' := fun e' he' =>
    { State.Same.refl s e' with
      releasing := fun phase =>
        (Multiset.count_cons_of_ne (fun heq => he' (congrArg Prod.fst heq)) _).trans (count_others hreleasing he' phase) }
  refine h.same hothers ⟨?_, ?_, charged, fun _ => hcost, ?_⟩ Iff.rfl rfl ?_ rfl
  · show _ = s.holders e + _ + ((e, ReleasePhase.loaded (s.charged e)) ::ₘ others).count (e, .starting)
    rw [hleaving]
    exact counter
  · show _ → _ ∧ ((e, ReleasePhase.loaded (s.charged e)) ::ₘ others).count (e, .starting) = 0
    rw [hleaving]
    exact alone
  · intro cost hin
    rcases Multiset.mem_cons.mp hin with heq | hin
    · cases heq
      exact hcost
    · exact loaded cost (by rw [hreleasing]; exact Multiset.mem_cons_of_mem hin)
  · show (((e, ReleasePhase.loaded (s.charged e)) ::ₘ others).map (owed event)).sum = _
    rw [hreleasing, Multiset.map_cons, Multiset.map_cons, Multiset.sum_cons, Multiset.sum_cons]
    rfl

theorem loaded (h : s.Exact limit event) {cost : Nat} (hreleasing : s.releasing = (e, .loaded cost) ::ₘ others) :
    (s.releaseNext e others (.loaded cost)).Exact limit event := by
  obtain ⟨counter, alone, charged, last, loaded⟩ := h.events e
  have hcost : cost = (event e).cost := loaded cost (by rw [hreleasing]; exact Multiset.mem_cons_self _ _)
  have hleaving : others.count (e, .starting) = s.leaving e := by
    rw [leaving, hreleasing, Multiset.count_cons_of_ne (by simp)]
  have hmem : ∀ phase, (e, phase) ∈ others → (e, phase) ∈ s.releasing := fun phase hin => by
    rw [hreleasing]
    exact Multiset.mem_cons_of_mem hin
  have hothers : ∀ e' ≠ e, s.Same (s.releaseNext e others (.loaded cost)) e' := fun e' he' =>
    { State.Same.refl s e' with releasing := fun phase => count_others hreleasing he' phase }
  obtain ⟨total, htotal, hsum⟩ := h.bytes
  have htake : s.bytes = total + ((event e).cost + (others.map (owed event)).sum) := by
    rw [hsum, hreleasing, Multiset.map_cons, Multiset.sum_cons]
    rfl
  refine ⟨events_of_same h hothers ⟨?_, ?_, charged, fun hin => last (hmem _ hin), fun cost hin => loaded cost (hmem _ hin)⟩,
    ⟨total, htotal.congr (counted_of_same hothers Iff.rfl), ?_⟩, (Nat.sub_le _ _).trans h.le_limit, ?_⟩
  · show _ = s.holders e + _ + others.count (e, .starting)
    rw [hleaving]
    exact counter
  · show _ → _ ∧ others.count (e, .starting) = 0
    rw [hleaving]
    exact alone
  · show s.bytes - cost = total + (others.map (owed event)).sum
    omega
  · show (s.underflow || decide (s.bytes < cost)) = false
    rw [h.underflow, decide_eq_false (by omega)]
    rfl

end Releasing

end State.Exact

theorem Step.exact (h : s.Exact limit event) (hstep : Step limit event s s') : s'.Exact limit event := by
  cases hstep with
  | charge q hnone => exact h.charge hnone q
  | @charging q e phase hphase =>
    have hphase := phase_eq hphase
    cases phase with
    | entered => exact h.entered hphase q
    | first => exact h.first hphase q
    | updated fits => exact h.updated hphase q
    | refused => exact h.refused hphase q
    | granted => exact h.granted hphase q
  | release hheld => exact h.release hheld
  | @releasing e phase others hreleasing =>
    cases phase with
    | starting =>
      by_cases hone : s.queues e = 1
      · exact h.starting_of_one hreleasing hone
      · exact h.starting_of_ne hreleasing hone
    | last => exact h.last hreleasing
    | loaded cost => exact h.loaded hreleasing

theorem exact_of_reachable (h : (system limit event).Reachable s) : s.Exact limit event :=
  System.Reachable.invariant (I := State.Exact limit event) (fun _ hinit => hinit ▸ exact_new)
    (fun _ _ _ hs hstep => Step.exact hs hstep) h

end Steps

/-! ### The budget -/

variable [DecidableEq Q]

/-- The queues that hold the event. -/
def State.holdersOf (s : State Q E) (e : E) : Finset Q := ((s.held.filter (·.2 = e)).map (·.1)).toFinset

/-- The events that a queue holds. -/
def State.heldEvents (s : State Q E) : Finset E := (s.held.map (·.2)).toFinset

/-- No operation of any charge or release subtracts more than there is, or takes the bytes past the limit. With nothing
in progress the bytes are those of the events in the queues, each once, and an event's counter counts its entries, which
are its queues where none has it twice. -/
theorem budget_exact {limit : Nat} {event : E → Event} {s : State Q E} (h : (system limit event).Reachable s) :
    s.underflow = false ∧ s.bytes ≤ limit ∧
      (s.Quiet →
        s.bytes = ∑ e ∈ s.heldEvents, (event e).cost ∧
        ∀ e, s.queues e = (s.held.filter (·.2 = e)).card ∧ (s.held.Nodup → s.queues e = (s.holdersOf e).card)) := by
  have hexact := exact_of_reachable h
  refine ⟨hexact.underflow, hexact.le_limit, fun ⟨hcharging, hreleasing⟩ => ?_⟩
  have hphase : ∀ e, s.phase e = none := fun e => by rw [State.phase, hcharging]; rfl
  have hqueues : ∀ e, s.queues e = (s.held.filter (·.2 = e)).card := fun e => by
    rw [(hexact.events e).counter, hphase, State.leaving, hreleasing, Multiset.count_zero, State.holders,
      Multiset.countP_eq_card_filter]
    rfl
  refine ⟨?_, fun e => ⟨hqueues e, fun hnodup => ?_⟩⟩
  · obtain ⟨total, ⟨active, hactive, htotal⟩, hbytes⟩ := hexact.bytes
    have hheld : active = s.heldEvents := by
      ext e
      rw [hactive, State.Counted, hphase, State.heldEvents, Multiset.mem_toFinset, Multiset.mem_map, hqueues,
        Multiset.card_pos_iff_exists_mem]
      constructor
      · rintro ⟨⟨entry, hentry⟩, -⟩
        exact ⟨entry, Multiset.mem_filter.mp hentry⟩
      · rintro ⟨entry, hentry⟩
        exact ⟨⟨entry, Multiset.mem_filter.mpr hentry⟩, rfl⟩
    rw [hbytes, hreleasing, htotal, hheld]
    rfl
  · rw [hqueues, State.holdersOf, Multiset.toFinset_card_of_nodup, Multiset.card_map]
    refine Multiset.Nodup.map_on ?_ (hnodup.filter _)
    intro entry hentry entry' hentry' hqueue
    refine Prod.ext hqueue ?_
    exact (Multiset.mem_filter.mp hentry).2.trans (Multiset.mem_filter.mp hentry').2.symm

/-! An event that leaves its queue and is charged for another one before its bytes are given back. -/

theorem epoch_lt : 0 < 2 ^ 64 := by decide

def call : Event :=
  ⟨⟨"default", "f", "1", true, none, none, none, none, none, ⟨0, epoch_lt⟩, none⟩, none, none⟩

/-- The charge of the call for a queue, from its start to the push. -/
def chargeAll (s : State Nat Unit) (q : Nat) : State Nat Unit :=
  let s := s.goTo () (some (q, .entered))
  let s := s.chargeNext 1000 (fun _ => call) q () .entered
  let s := s.chargeNext 1000 (fun _ => call) q () .first
  let s := s.chargeNext 1000 (fun _ => call) q () (.updated true)
  s.chargeNext 1000 (fun _ => call) q () .granted

/-- The release from the first queue counts down, the second queue is charged, and the release gives its bytes back. -/
def chargedAgain : State Nat Unit :=
  let s := chargeAll .new 1
  let s := { s with held := 0, releasing := {((), ReleasePhase.starting)} }
  let s := s.releaseNext () 0 .starting
  let s := chargeAll s 2
  let s := s.releaseNext () 0 .last
  s.releaseNext () 0 (.loaded 265)

theorem chargeNext_reachable {s : State Nat Unit} (h : (system 1000 fun _ => call).Reachable s) (q : Nat) (phase : Phase)
    (hphase : s.charging () = some (q, phase)) :
    (system 1000 fun _ => call).Reachable (s.chargeNext 1000 (fun _ => call) q () phase) :=
  h.step (.charging hphase)

theorem releaseNext_reachable {s : State Nat Unit} (h : (system 1000 fun _ => call).Reachable s) (phase : ReleasePhase)
    (hphase : s.releasing = {((), phase)}) : (system 1000 fun _ => call).Reachable (s.releaseNext () 0 phase) :=
  h.step (.releasing hphase)

theorem chargeAll_reachable {s : State Nat Unit} (h : (system 1000 fun _ => call).Reachable s) (q : Nat)
    (hcharging : s.charging () = none) (hqueues : s.queues () = 0) (hbytes : s.bytes + call.cost ≤ 1000) :
    (system 1000 fun _ => call).Reachable (chargeAll s q) := by
  have hentered := chargeNext_reachable (h.step (.charge q hcharging)) q .entered (by simp [State.goTo])
  have hfirst := chargeNext_reachable hentered q .first (by simp [State.chargeNext, State.goTo, hqueues])
  have hupdated := chargeNext_reachable hfirst q (.updated true) (by
    simp [State.chargeNext, State.goTo, State.setQueues, hbytes])
  exact chargeNext_reachable hupdated q .granted (by simp [State.chargeNext, State.goTo])

theorem chargedAgain_reachable : (system 1000 fun _ => call).Reachable chargedAgain := by
  have hone := chargeAll_reachable (.init rfl) 1 rfl rfl (by decide)
  have hleft := hone.step (@Step.release Nat Unit _ 1000 (fun _ => call) _ 1 () 0 rfl)
  have hdown := releaseNext_reachable hleft .starting rfl
  have htwo := chargeAll_reachable hdown 2 rfl rfl (by decide)
  exact releaseNext_reachable (releaseNext_reachable htwo .last rfl) (.loaded 265) rfl

theorem budget_exact_again : chargedAgain.bytes = 265 ∧ chargedAgain.queues () = 1 := by
  obtain ⟨-, -, hquiet⟩ := budget_exact chargedAgain_reachable
  obtain ⟨hbytes, hqueues⟩ := hquiet ⟨fun _ => rfl, rfl⟩
  exact ⟨hbytes, (hqueues ()).1⟩

end Iii.Dispatch.Budget
