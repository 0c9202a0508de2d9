import Iii.Observers.Sections

/-! Either the observers of a connection move to the one that claimed its record, or they are
disposed: every order of the sections, as long as the timer does not fire before the record it is
about is there. -/
namespace Iii.Observers.Sections
open Lib

variable {s₀ s s' : State} {id : String}

namespace State

/-- `home` is open, and the indexes agree with the observers. -/
structure Open (s : State) : Prop where
  closer : s.closer = .idle
  timer : s.timer = .off
  claim : s.claim = .free
  departed : s.departed = none
  expired : s.expired = none
  disposal : ∀ id, s.disposal id = .none
  live : ∀ id, s.byId id = true → (s.arcs id).disposed = false
  listed : ∀ d id, id ∈ s.byConnection d ↔ s.byId id = true ∧ (s.arcs id).connection = d
  nodup : (s.byConnection s.home).Nodup
  connected : ∀ id, s.byId id = true → (s.arcs id).connection = s.home → (s.arcs id).connected = true

def owns (s : State) (id : String) : Prop := s.byId id = true ∧ (s.arcs id).connection = s.home

/-- `id` is in the set of `d` and in no other. -/
def onlyAt (s : State) (id : String) (d : Conn) : Prop := ∀ e, id ∈ s.byConnection e ↔ e = d

def atHome (s : State) (id : String) : Prop := (s.arcs id).connection = s.home ∧ s.onlyAt id s.home

/-- Between the sets: taken out of `home`'s, and not moved yet. -/
def inHand (s : State) (id : String) : Prop :=
  (s.arcs id).connection = s.home ∧ (s.arcs id).connected = false ∧ ∀ e, id ∉ s.byConnection e

def arrived (s : State) (id : String) (new : Conn) : Prop :=
  (s.arcs id).connection = new ∧ (s.arcs id).connected = true ∧ s.onlyAt id new

/-- Where an observer that is not disposed is before its record is claimed. -/
def waits (s : State) (id : String) : Prop :=
  s.atHome id ∧
    match s.closer with
    | .idle => (s.arcs id).connected = true
    | .suspend ids => id ∈ ids ∨ (s.arcs id).connected = false
    | .depart => (s.arcs id).connected = false
    | .done => (s.arcs id).connected = false ∧
      match s.timer with
      | .sleeping => s.departed ≠ none
      | .scan => True
      | .dispose ids => id ∈ ids
      | _ => False

/-- Where an observer that is not disposed is. -/
def placed (s : State) (id : String) : Prop :=
  match s.claim with
  | .free => s.waits id
  | .collect _ => s.atHome id ∧ (s.arcs id).connected = false
  | .next new ids => if id ∈ ids then s.inHand id else s.arrived id new
  | .parent new j ids | .setObserving new j ids => if id ∈ j :: ids then s.inHand id else s.arrived id new
  | .list new j ids =>
    if id = j then (s.arcs id).connection = new ∧ ∀ e, id ∉ s.byConnection e
    else if id ∈ ids then s.inHand id else s.arrived id new
  | .check new j ids | .connect new j ids =>
    if id = j then (s.arcs id).connection = new ∧ s.onlyAt id new
    else if id ∈ ids then s.inHand id else s.arrived id new
  | .unlist new j ids => id ≠ j ∧ if id ∈ ids then s.inHand id else s.arrived id new
  | .rekey new | .done new => s.arrived id new

/-- The connection that claimed the record, and the observers it has still to look at. -/
def claimant : Claim → Option Conn
  | .free => none
  | .collect new | .next new _ | .parent new _ _ | .setObserving new _ _ | .list new _ _ | .check new _ _
  | .unlist new _ _ | .connect new _ _ | .rekey new | .done new => some new

def pending : Claim → List String
  | .next _ ids => ids
  | .parent _ j ids | .setObserving _ j ids | .list _ j ids | .check _ j ids | .unlist _ j ids | .connect _ j ids =>
    j :: ids
  | _ => []

/-- What is known of the operations. -/
structure Stage (s₀ s : State) : Prop where
  home : s.home = s₀.home
  token : s.token = s₀.token
  nodup : (s.byConnection s.home).Nodup
  pending : (pending s.claim).Nodup
  departed : ∀ t, s.departed = some t → t = s.token ∧ s.closer = .done ∧ s.claim = .free ∧ s.timer = .sleeping
  expired : ∀ t ids, s.expired = some (t, ids) → t = s.token
  early : s.closer = .idle ∨ (∃ ids, s.closer = .suspend ids) → s.timer = .off ∧ s.claim = .free
  leaving : s.closer = .depart → s.timer = .sleeping ∧ s.claim = .free
  claimed : s.claim ≠ .free → s.closer = .done ∧ s.departed = none ∧ (s.timer = .sleeping ∨ s.timer = .over)
  claimant : ∀ new, claimant s.claim = some new → new ≠ s.home ∧ new ∈ s.heirs

/-- What is known of an observer that `home` owned. -/
structure Fate (s₀ s : State) (id : String) : Prop where
  disposed : s.disposal id = .none ↔ (s.arcs id).disposed = false
  byId : s.byId id = true ↔ s.disposal id = .none ∨ (∃ drop, s.disposal id = .drain drop) ∨ s.disposal id = .forget
  connection : (s.arcs id).connection ∈ s.home :: s.heirs
  entombed : ∀ d, s.disposal id = .entomb d → d ∈ s.home :: s.heirs
  buried : (∃ d, s.disposal id = .unindex d) ∨ s.disposal id = .done →
    ∃ d, Assoc.get? s.tombstones id = some d ∧ d ∈ s.home :: s.heirs
  counters : (s.arcs id).disposed = false → (s.arcs id).fires = (s₀.arcs id).fires ∧
    (s.arcs id).inactive = (s₀.arcs id).inactive ∧ (s.arcs id).queued = (s₀.arcs id).queued
  placed : (s.arcs id).disposed = false → s.placed id

theorem Stage.start (h : s.Open) : Stage s s := by
  constructor <;> simp [h.closer, h.timer, h.claim, h.departed, h.expired, h.nodup, State.pending, State.claimant]

theorem Fate.start (h : s.Open) (hid : s.owns id) : Fate s s id := by
  obtain ⟨hbyId, hhome⟩ := hid
  have hlive := h.live id hbyId
  have hwaits : s.waits id := by
    refine ⟨⟨hhome, ?_⟩, ?_⟩
    · intro e
      rw [h.listed]
      constructor
      · rintro ⟨_, rfl⟩
        exact hhome
      · rintro rfl
        exact ⟨hbyId, hhome⟩
    · rw [h.closer]
      exact h.connected id hbyId hhome
  constructor <;> simp [h.disposal, hlive, hbyId, hhome, State.placed, h.claim, hwaits]

/-- The timer does not fire before the record it is about is inserted. -/
def timely (s : State) : Act → Bool
  | .timer => s.timer ≠ .sleeping || s.closer = .done
  | _ => true

theorem Stage.close (h : Stage s₀ s) (hstep : s.step .close = some s') : Stage s₀ s' := by
  simp only [step] at hstep
  split at hstep
  · rename_i hidle
    cases hstep
    obtain ⟨h₁, h₂, h₃, h₄, h₅, h₆, h₇, h₈, h₉, h₁₀⟩ := h
    constructor <;> simp only [] at * <;> grind -ring -linarith
  · cases hstep

theorem Stage.closerStep (h : Stage s₀ s) (hstep : s.closerStep = some s') : Stage s₀ s' := by
  unfold State.closerStep at hstep
  obtain ⟨h₁, h₂, h₃, h₄, h₅, h₆, h₇, h₈, h₉, h₁₀⟩ := h
  split at hstep
  · cases hstep
    constructor <;> simp only [modify] at * <;> grind -ring -linarith
  · cases hstep
    constructor <;> simp only [] at * <;> grind -ring -linarith
  · cases hstep
    constructor <;> simp only [] at * <;> grind -ring -linarith
  · cases hstep

theorem Stage.timerStep (h : Stage s₀ s) (ht : s.timely .timer = true) (hstep : s.timerStep = some s') :
    Stage s₀ s' := by
  unfold State.timerStep at hstep
  obtain ⟨h₁, h₂, h₃, h₄, h₅, h₆, h₇, h₈, h₉, h₁₀⟩ := h
  simp only [timely] at ht
  split at hstep
  · split at hstep
    · cases hstep
      constructor <;> simp only [] at * <;> grind -ring -linarith
    · cases hstep
      constructor <;> simp only [] at * <;> grind -ring -linarith
  · cases hstep
    constructor <;> simp only [] at * <;> grind -ring -linarith
  · split at hstep
    · cases hstep
      constructor <;> simp only [dispose, modify] at * <;> grind -ring -linarith
    · cases hstep
      constructor <;> simp only [] at * <;> grind -ring -linarith
  · cases hstep
    constructor <;> simp only [] at * <;> grind -ring -linarith
  · cases hstep
    constructor <;> simp only [] at * <;> grind -ring -linarith
  · cases hstep

theorem Stage.attempt (h : Stage s₀ s) (new : Conn) (token : Token) (hnew : new ≠ s.home) :
    Stage s₀ (s.attempt new token) := by
  unfold State.attempt
  obtain ⟨h₁, h₂, h₃, h₄, h₅, h₆, h₇, h₈, h₉, h₁₀⟩ := h
  split
  · constructor <;> simp only [State.pending, State.claimant] at * <;> grind -ring -linarith
  · exact ⟨h₁, h₂, h₃, h₄, h₅, h₆, h₇, h₈, h₉, h₁₀⟩

theorem Stage.late (h : Stage s₀ s) (new : Conn) (token : Token) : Stage s₀ (s.late new token) := by
  unfold State.late
  split
  · split
    · obtain ⟨h₁, h₂, h₃, h₄, h₅, h₆, h₇, h₈, h₉, h₁₀⟩ := h
      constructor <;> simp only [] at * <;> grind -ring -linarith
    · exact h
  · exact h

theorem Stage.dispose (h : Stage s₀ s) (id : String) (drop : Bool) : Stage s₀ (s.dispose id drop) := by
  unfold State.dispose
  split
  · exact h
  · exact ⟨h.home, h.token, h.nodup, h.pending, h.departed, h.expired, h.early, h.leaving, h.claimed, h.claimant⟩

theorem Stage.disposalStep (h : Stage s₀ s) (hstep : s.disposalStep id = some s') : Stage s₀ s' := by
  unfold State.disposalStep at hstep
  obtain ⟨h₁, h₂, h₃, h₄, h₅, h₆, h₇, h₈, h₉, h₁₀⟩ := h
  split at hstep
  · cases hstep
    exact ⟨h₁, h₂, h₃, h₄, h₅, h₆, h₇, h₈, h₉, h₁₀⟩
  · cases hstep
    exact ⟨h₁, h₂, h₃, h₄, h₅, h₆, h₇, h₈, h₉, h₁₀⟩
  · cases hstep
    exact ⟨h₁, h₂, h₃, h₄, h₅, h₆, h₇, h₈, h₉, h₁₀⟩
  · cases hstep
    exact ⟨h₁, h₂, h₃, h₄, h₅, h₆, h₇, h₈, h₉, h₁₀⟩
  · rename_i connection _
    cases hstep
    refine ⟨h₁, h₂, ?_, h₄, h₅, h₆, h₇, h₈, h₉, h₁₀⟩
    show (Function.update s.byConnection connection _ s.home).Nodup
    by_cases hd : s.home = connection
    · rw [hd, Function.update_self]
      exact (hd ▸ h₃).filter _
    · rw [Function.update_of_ne hd]
      exact h₃
  · cases hstep

theorem Stage.claimStep (h : Stage s₀ s) (hstep : s.claimStep = some s') : Stage s₀ s' := by
  unfold State.claimStep at hstep
  obtain ⟨h₁, h₂, h₃, h₄, h₅, h₆, h₇, h₈, h₉, h₁₀⟩ := h
  split at hstep <;> cases hstep <;> rename_i hclaim <;>
    constructor <;>
    simp only [hclaim, State.pending, State.claimant, modify, enlist, delist] at * <;>
    grind -ring -linarith [Function.update_apply]

/-- What the fate of `id` depends on, apart from the operations. -/
structure Same (s s' : State) (id : String) : Prop where
  home : s'.home = s.home
  heirs : s'.heirs = s.heirs
  arcs : s'.arcs id = s.arcs id
  byId : s'.byId id = s.byId id
  listed : ∀ e, id ∈ s'.byConnection e ↔ id ∈ s.byConnection e
  tombstone : Assoc.get? s'.tombstones id = Assoc.get? s.tombstones id
  disposal : s'.disposal id = s.disposal id

/-- The operations go on at the same point. -/
structure SameOps (s s' : State) : Prop where
  closer : s'.closer = s.closer
  timer : s'.timer = s.timer
  claim : s'.claim = s.claim
  departed : s'.departed = s.departed

theorem placed_congr (h : s.placed id) (hops : SameOps s s') (hsame : Same s s' id) : s'.placed id := by
  unfold placed waits atHome onlyAt inHand arrived onlyAt at h ⊢
  simp only [hops.closer, hops.timer, hops.claim, hops.departed, hsame.home, hsame.arcs, hsame.listed]
  exact h

/-- Once the record is claimed, only the claim matters. -/
theorem placed_claimed (h : s.placed id) (hne : s.claim ≠ .free) (hclaim : s'.claim = s.claim) (hsame : Same s s' id) :
    s'.placed id := by
  unfold placed atHome onlyAt inHand arrived onlyAt at h ⊢
  simp only [hclaim, hsame.home, hsame.arcs, hsame.listed]
  split at h
  · rename_i hfree
    exact absurd hfree hne
  all_goals exact h

theorem Fate.congr (h : Fate s₀ s id) (hsame : Same s s' id)
    (hplaced : (s.arcs id).disposed = false → s'.placed id) : Fate s₀ s' id := by
  obtain ⟨hhome, hheirs, harcs, hbyId, _, htombstone, hdisposal⟩ := hsame
  constructor
  · rw [hdisposal, harcs]
    exact h.disposed
  · rw [hdisposal, hbyId]
    exact h.byId
  · rw [harcs, hhome, hheirs]
    exact h.connection
  · rw [hdisposal, hhome, hheirs]
    exact h.entombed
  · rw [hdisposal, hhome, hheirs, htombstone]
    exact h.buried
  · rw [harcs]
    exact h.counters
  · rw [harcs]
    exact hplaced

theorem Fate.frame (h : Fate s₀ s id) (hops : SameOps s s') (hsame : Same s s' id) : Fate s₀ s' id :=
  h.congr hsame fun hlive => placed_congr (h.placed hlive) hops hsame

theorem Fate.close (h : Fate s₀ s id) (hstage : Stage s₀ s) (hstep : s.step .close = some s') : Fate s₀ s' id := by
  simp only [step] at hstep
  split at hstep
  · rename_i hidle
    cases hstep
    obtain ⟨h₁, h₂, h₃, h₄, h₅, h₆, h₇⟩ := h
    refine ⟨h₁, h₂, h₃, h₄, h₅, h₆, ?_⟩
    intro hlive
    have hplaced := h₇ hlive
    have hbyId := h₂.mpr (.inl (h₁.mpr hlive))
    have hfree := (hstage.early (.inl hidle)).2
    simp only [State.placed, hfree, State.waits, hidle, State.atHome] at hplaced ⊢
    obtain ⟨⟨hhome, hlisted⟩, hconnected⟩ := hplaced
    have hmem : id ∈ s.snapshot := by
      rw [snapshot, List.mem_filter]
      exact ⟨(hlisted s.home).mpr rfl, by simp [hbyId, hhome]⟩
    have hne : s.snapshot.isEmpty = false := List.isEmpty_eq_false_iff.mpr (List.ne_nil_of_mem hmem)
    rw [hne]
    exact ⟨⟨hhome, hlisted⟩, .inl hmem⟩
  · cases hstep

theorem Fate.closerStep (h : Fate s₀ s id) (hstage : Stage s₀ s) (hstep : s.closerStep = some s') :
    Fate s₀ s' id := by
  unfold State.closerStep at hstep
  obtain ⟨h₁, h₂, h₃, h₄, h₅, h₆, h₇⟩ := h
  split at hstep
  · rename_i hcloser
    cases hstep
    have hfree := (hstage.early (.inr ⟨_, hcloser⟩)).2
    constructor <;>
      simp only [modify, State.placed, hfree, State.waits, hcloser, State.atHome, State.onlyAt] at * <;>
      grind -ring -linarith [Function.update_apply]
  · rename_i hcloser
    cases hstep
    have hfree := (hstage.early (.inr ⟨_, hcloser⟩)).2
    constructor <;>
      simp only [State.placed, hfree, State.waits, hcloser, State.atHome, State.onlyAt] at * <;>
      grind -ring -linarith
  · rename_i hcloser
    cases hstep
    have hfree := (hstage.leaving hcloser).2
    have htimer := (hstage.leaving hcloser).1
    constructor <;>
      simp only [State.placed, hfree, htimer, State.waits, hcloser, State.atHome, State.onlyAt] at * <;>
      grind -ring -linarith
  · cases hstep

/-- The disposal of an observer: of `id`, it is gone from here on; of another, nothing changes. -/
theorem Fate.dispose (h : Fate s₀ s id) (other : String) (drop : Bool) : Fate s₀ (s.dispose other drop) id := by
  unfold State.dispose
  split
  · exact h
  · by_cases hid : id = other
    · subst hid
      obtain ⟨h₁, h₂, h₃, h₄, h₅, h₆, h₇⟩ := h
      constructor <;> simp only [modify] at * <;> grind -ring -linarith [Function.update_apply]
    · refine h.frame ⟨rfl, rfl, rfl, rfl⟩ ⟨rfl, rfl, ?_, rfl, fun _ => Iff.rfl, rfl, ?_⟩
      · exact Function.update_of_ne hid _ _
      · exact Function.update_of_ne hid _ _

/-- A step of the timer that only moves it on. -/
theorem Fate.timer (h : Fate s₀ s id) (timer : Timer) (departed : Option Token) (expired : Option (Token × List String))
    (hwaits : s.claim = .free → (s.arcs id).disposed = false → s.waits id →
      { s with timer := timer, departed := departed, expired := expired }.waits id) :
    Fate s₀ { s with timer := timer, departed := departed, expired := expired } id := by
  have hsame : Same s { s with timer := timer, departed := departed, expired := expired } id :=
    ⟨rfl, rfl, rfl, rfl, fun _ => Iff.rfl, rfl, rfl⟩
  apply h.congr hsame
  intro hlive
  have hplaced := h.placed hlive
  by_cases hfree : s.claim = .free
  · simp only [State.placed, hfree] at hplaced ⊢
    exact hwaits hfree hlive hplaced
  · exact placed_claimed hplaced hfree rfl hsame

theorem Fate.timerStep (h : Fate s₀ s id) (hstage : Stage s₀ s) (ht : s.timely .timer = true)
    (hstep : s.timerStep = some s') : Fate s₀ s' id := by
  unfold State.timerStep at hstep
  -- once the timer runs, the teardown is over
  have hdone : s.timer ≠ .off → s.timer ≠ .sleeping → s.closer = .done := by
    intro hoff hsleeping
    have hearly := hstage.early
    have hleaving := hstage.leaving
    cases hcloser : s.closer <;> grind -ring -linarith
  split at hstep
  · rename_i htimer
    have hclosed : s.closer = .done := by simpa [timely, htimer] using ht
    split at hstep
    · -- the timer takes the record
      cases hstep
      apply h.timer .scan none s.expired
      intro _ _ hwaits
      simp only [waits, hclosed, htimer] at hwaits ⊢
      exact ⟨hwaits.1, hwaits.2.1, trivial⟩
    · -- a `Reattach` was first
      rename_i hnone
      cases hstep
      apply h.timer .over s.departed s.expired
      intro _ _ hwaits
      simp only [waits, hclosed, htimer] at hwaits
      exact absurd hnone hwaits.2.2
  · rename_i htimer
    have hclosed := hdone (by simp [htimer]) (by simp [htimer])
    cases hstep
    apply h.timer _ s.departed s.expired
    intro _ hlive hwaits
    simp only [waits, hclosed, htimer] at hwaits ⊢
    obtain ⟨⟨hhome, hlisted⟩, haway, _⟩ := hwaits
    refine ⟨⟨hhome, hlisted⟩, haway, List.mem_filter.mpr ⟨(hlisted s.home).mpr rfl, ?_⟩⟩
    exact h.byId.mpr (.inl (h.disposed.mpr hlive))
  · rename_i j ids htimer
    have hclosed := hdone (by simp [htimer]) (by simp [htimer])
    split at hstep
    · cases hstep
      have hgone : id = j → ((s.dispose j true).arcs id).disposed = true := by
        rintro rfl
        unfold State.dispose
        split
        · assumption
        · simp [modify]
      have hframe : (s.dispose j true).timer = s.timer ∧ (s.dispose j true).closer = s.closer := by
        unfold State.dispose
        split <;> exact ⟨rfl, rfl⟩
      apply (h.dispose j true).timer _ (s.dispose j true).departed (s.dispose j true).expired
      intro _ hlive hwaits
      simp only [waits, hframe.1, hframe.2, hclosed, htimer] at hwaits ⊢
      refine ⟨hwaits.1, hwaits.2.1, (List.mem_cons.mp hwaits.2.2).resolve_left ?_⟩
      intro hid
      rw [hgone hid] at hlive
      cases hlive
    · rename_i hstays
      cases hstep
      apply h.timer _ s.departed s.expired
      intro _ _ hwaits
      simp only [waits, hclosed, htimer] at hwaits ⊢
      refine ⟨hwaits.1, hwaits.2.1, (List.mem_cons.mp hwaits.2.2).resolve_left ?_⟩
      rintro rfl
      exact hstays ⟨hwaits.1.1, hwaits.2.1⟩
  · rename_i htimer
    have hclosed := hdone (by simp [htimer]) (by simp [htimer])
    cases hstep
    apply h.timer _ s.departed s.expired
    intro _ _ hwaits
    simp only [waits, hclosed, htimer] at hwaits
    simp at hwaits
  · rename_i htimer
    have hclosed := hdone (by simp [htimer]) (by simp [htimer])
    cases hstep
    apply h.timer .over s.departed _
    intro _ _ hwaits
    simp only [waits, hclosed, htimer] at hwaits
    simp at hwaits
  · cases hstep

theorem Fate.attempt (h : Fate s₀ s id) (hstage : Stage s₀ s) (new : Conn) (token : Token) :
    Fate s₀ (s.attempt new token) id := by
  unfold State.attempt
  split
  · rename_i hfound
    obtain ⟨_, hdone, hfree, hsleeping⟩ := hstage.departed _ hfound
    obtain ⟨h₁, h₂, h₃, h₄, h₅, h₆, h₇⟩ := h
    constructor <;>
      simp only [State.placed, hfree, State.waits, hdone, hsleeping, State.atHome, State.onlyAt] at * <;>
      grind -ring -linarith
  · exact h

theorem get?_foldl_insert (ids : List String) (tombstones : List (String × Conn)) (new : Conn) (id : String) :
    Assoc.get? (ids.foldl (fun tombstones id => Assoc.insert tombstones id new) tombstones) id =
      if id ∈ ids then some new else Assoc.get? tombstones id := by
  induction ids generalizing tombstones with
  | nil => simp
  | cons first rest ih =>
    rw [List.foldl_cons, ih, Assoc.get?_insert]
    grind -ring -linarith

theorem Fate.late (h : Fate s₀ s id) (new : Conn) (token : Token) : Fate s₀ (s.late new token) id := by
  unfold State.late
  split
  · rename_i kept ids _
    split
    · have hmore : ∀ {d}, d ∈ s.home :: s.heirs → d ∈ s.home :: new :: s.heirs := by
        intro d hd
        rw [List.mem_cons] at hd
        rcases hd with rfl | hd
        · exact List.mem_cons_self ..
        · exact List.mem_cons_of_mem _ (List.mem_cons_of_mem _ hd)
      refine ⟨h.disposed, h.byId, hmore h.connection, fun d hd => hmore (h.entombed d hd), ?_, h.counters, h.placed⟩
      intro hgone
      obtain ⟨d, hd, hmem⟩ := h.buried hgone
      show ∃ d, Assoc.get? (ids.foldl _ s.tombstones) id = some d ∧ d ∈ s.home :: new :: s.heirs
      rw [get?_foldl_insert]
      split
      · exact ⟨new, rfl, List.mem_cons_of_mem _ (List.mem_cons_self ..)⟩
      · exact ⟨d, hd, hmore hmem⟩
    · exact h
  · exact h

/-- The rest of the disposal of another observer. -/
theorem disposalStep_same {other : String} (hid : id ≠ other) (hstep : s.disposalStep other = some s') :
    SameOps s s' ∧ Same s s' id := by
  unfold disposalStep at hstep
  split at hstep
  · cases hstep
    refine ⟨⟨rfl, rfl, rfl, rfl⟩, rfl, rfl, ?_, rfl, fun _ => Iff.rfl, rfl, ?_⟩
    · exact Function.update_of_ne hid _ _
    · exact Function.update_of_ne hid _ _
  · cases hstep
    refine ⟨⟨rfl, rfl, rfl, rfl⟩, rfl, rfl, rfl, ?_, fun _ => Iff.rfl, rfl, ?_⟩
    · exact Function.update_of_ne hid _ _
    · exact Function.update_of_ne hid _ _
  · cases hstep
    exact ⟨⟨rfl, rfl, rfl, rfl⟩, rfl, rfl, rfl, rfl, fun _ => Iff.rfl, rfl, Function.update_of_ne hid _ _⟩
  · cases hstep
    refine ⟨⟨rfl, rfl, rfl, rfl⟩, rfl, rfl, rfl, rfl, fun _ => Iff.rfl, ?_, ?_⟩
    · show Assoc.get? (Assoc.insert s.tombstones other _) id = _
      rw [Assoc.get?_insert, if_neg (Ne.symm hid)]
    · exact Function.update_of_ne hid _ _
  · rename_i connection _
    cases hstep
    refine ⟨⟨rfl, rfl, rfl, rfl⟩, rfl, rfl, rfl, rfl, ?_, rfl, ?_⟩
    · intro e
      show id ∈ Function.update s.byConnection connection _ e ↔ _
      by_cases he : e = connection
      · rw [he, Function.update_self, List.mem_filter]
        simp [hid]
      · rw [Function.update_of_ne he]
    · exact Function.update_of_ne hid _ _
  · cases hstep

theorem Fate.disposalStep (h : Fate s₀ s id) {other : String} (hstep : s.disposalStep other = some s') :
    Fate s₀ s' id := by
  by_cases hid : id = other
  · subst hid
    obtain ⟨h₁, h₂, h₃, h₄, h₅, h₆, h₇⟩ := h
    unfold State.disposalStep at hstep
    split at hstep
    · cases hstep
      constructor <;> simp only [modify] at * <;> grind -ring -linarith [Function.update_apply]
    · cases hstep
      constructor <;> simp only [] at * <;> grind -ring -linarith [Function.update_apply]
    · cases hstep
      constructor <;> simp only [] at * <;> grind -ring -linarith [Function.update_apply]
    · cases hstep
      constructor <;> simp only [] at * <;> grind -ring -linarith [Function.update_apply, Assoc.get?_insert]
    · rename_i hdisposal
      cases hstep
      have hburied := h₅ (.inl ⟨_, hdisposal⟩)
      constructor <;> simp only [delist] at * <;> grind -ring -linarith [Function.update_apply]
    · cases hstep
  · obtain ⟨hops, hsame⟩ := disposalStep_same hid hstep
    exact h.frame hops hsame

theorem Fate.claimStep (h : Fate s₀ s id) (hstage : Stage s₀ s) (hstep : s.claimStep = some s') :
    Fate s₀ s' id := by
  have hnodup := hstage.pending
  have hclaimant := hstage.claimant
  unfold State.claimStep at hstep
  obtain ⟨h₁, h₂, h₃, h₄, h₅, h₆, h₇⟩ := h
  split at hstep
  · -- collect
    rename_i hclaim
    cases hstep
    refine ⟨h₁, h₂, h₃, h₄, h₅, h₆, ?_⟩
    simp only [State.placed, hclaim, State.atHome, State.onlyAt, State.inHand, State.arrived, State.claimant] at *
    grind -ring -linarith [Function.update_apply]
  · -- next
    rename_i hclaim
    cases hstep
    refine ⟨h₁, h₂, h₃, h₄, h₅, h₆, ?_⟩
    simp only [State.placed, hclaim, State.atHome, State.onlyAt, State.inHand, State.arrived, State.pending] at *
    grind -ring -linarith
  · rename_i hclaim
    cases hstep
    refine ⟨h₁, h₂, h₃, h₄, h₅, h₆, ?_⟩
    simp only [State.placed, hclaim, State.onlyAt, State.inHand, State.arrived] at *
    grind -ring -linarith
  · -- parent
    rename_i hclaim
    cases hstep
    refine ⟨h₁, h₂, h₃, h₄, h₅, h₆, ?_⟩
    simp only [State.placed, hclaim, State.onlyAt, State.inHand, State.arrived, State.pending] at *
    grind -ring -linarith
  · -- setObserving
    rename_i hclaim
    cases hstep
    constructor <;>
      simp only [modify, State.placed, hclaim, State.onlyAt, State.inHand, State.arrived, State.pending,
        State.claimant] at * <;>
      grind -ring -linarith [Function.update_apply]
  · -- list
    rename_i hclaim
    cases hstep
    refine ⟨h₁, h₂, h₃, h₄, h₅, h₆, ?_⟩
    simp only [enlist, State.placed, hclaim, State.onlyAt, State.inHand, State.arrived, State.pending] at *
    grind -ring -linarith [Function.update_apply]
  · -- check
    rename_i hclaim
    cases hstep
    refine ⟨h₁, h₂, h₃, h₄, h₅, h₆, ?_⟩
    simp only [State.placed, hclaim, State.onlyAt, State.inHand, State.arrived, State.pending] at *
    grind -ring -linarith
  · -- unlist
    rename_i hclaim
    cases hstep
    refine ⟨h₁, h₂, h₃, h₄, h₅, h₆, ?_⟩
    simp only [delist, State.placed, hclaim, State.onlyAt, State.inHand, State.arrived, State.pending] at *
    grind -ring -linarith [Function.update_apply]
  · -- connect
    rename_i hclaim
    cases hstep
    constructor <;>
      simp only [modify, State.placed, hclaim, State.onlyAt, State.inHand, State.arrived, State.pending] at * <;>
      grind -ring -linarith [Function.update_apply]
  · -- rekey
    rename_i new hclaim
    cases hstep
    refine ⟨h₁, h₂, h₃, h₄, ?_, h₆, ?_⟩
    · intro hgone
      obtain ⟨d, hd, hmem⟩ := h₅ hgone
      refine ⟨if d = s.home then new else d, ?_, ?_⟩
      · show Assoc.get? (s.tombstones.map fun m => (m.1, _)) id = _
        rw [Assoc.get?_map (fun d => if d = s.home then new else d), hd]
        rfl
      · split
        · exact List.mem_cons_of_mem _ (hclaimant new (by rw [hclaim]; rfl)).2
        · exact hmem
    · simp only [State.placed, hclaim, State.onlyAt, State.arrived] at *
      exact h₇
  · cases hstep

theorem Stage.step {a : Act} (h : Stage s₀ s) (ht : s.timely a = true) (hstep : s.step a = some s') : Stage s₀ s' := by
  cases a with
  | close => exact h.close hstep
  | closer => exact h.closerStep hstep
  | timer => exact h.timerStep ht hstep
  | attempt new token =>
    simp only [State.step] at hstep
    split at hstep
    · rename_i hnew
      cases hstep
      exact h.attempt new token hnew
    · cases hstep
  | late new token =>
    simp only [State.step] at hstep
    split at hstep
    · cases hstep
      exact h.late new token
    · cases hstep
  | claim => exact h.claimStep hstep
  | dispose id drop =>
    simp only [State.step] at hstep
    split at hstep
    · cases hstep
      exact h.dispose id drop
    · cases hstep
  | disposal id => exact h.disposalStep hstep

theorem Fate.step {a : Act} (h : Fate s₀ s id) (hstage : Stage s₀ s) (ht : s.timely a = true)
    (hstep : s.step a = some s') : Fate s₀ s' id := by
  cases a with
  | close => exact h.close hstage hstep
  | closer => exact h.closerStep hstage hstep
  | timer => exact h.timerStep hstage ht hstep
  | attempt new token =>
    simp only [State.step] at hstep
    split at hstep
    · cases hstep
      exact h.attempt hstage new token
    · cases hstep
  | late new token =>
    simp only [State.step] at hstep
    split at hstep
    · cases hstep
      exact h.late new token
    · cases hstep
  | claim => exact h.claimStep hstage hstep
  | dispose other drop =>
    simp only [State.step] at hstep
    split at hstep
    · cases hstep
      exact h.dispose other drop
    · cases hstep
  | disposal other => exact h.disposalStep hstep

/-! ### How it ends -/

def sameCounters (s₀ s : State) (id : String) : Prop :=
  (s.arcs id).fires = (s₀.arcs id).fires ∧ (s.arcs id).inactive = (s₀.arcs id).inactive ∧
    (s.arcs id).queued = (s₀.arcs id).queued

/-- `id` belongs to the connection whose `Reattach` claimed the record, as it was. -/
def moved (s₀ s : State) (id : String) : Prop :=
  ∃ new, s.claim = .done new ∧ s.byId id = true ∧ (s.arcs id).disposed = false ∧ s.arrived id new ∧ sameCounters s₀ s id

/-- `id` is disposed, and remembered for `home` or for a connection that reattached. -/
def gone (s : State) (id : String) : Prop :=
  s.byId id = false ∧ (s.arcs id).disposed = true ∧ ∃ d, Assoc.get? s.tombstones id = some d ∧ d ∈ s.home :: s.heirs

/-- `id` waits for a `Reattach`. -/
def suspended (s₀ s : State) (id : String) : Prop :=
  s.byId id = true ∧ (s.arcs id).disposed = false ∧ s.atHome id ∧ (s.arcs id).connected = false ∧
    s.departed = some s.token ∧ sameCounters s₀ s id

theorem Fate.gone (h : Fate s₀ s id) (hquiet : s.quiet) (hdisposed : (s.arcs id).disposed = true) : s.gone id := by
  have hdone : s.disposal id = .done := by
    rcases hquiet.2.2.2 id with hnone | hdone
    · rw [h.disposed.mp hnone] at hdisposed
      cases hdisposed
    · exact hdone
  refine ⟨?_, hdisposed, h.buried (.inr hdone)⟩
  rw [← Bool.not_eq_true, h.byId, hdone]
  simp

theorem Fate.settled (h : Fate s₀ s id) (hstage : Stage s₀ s) (hquiet : s.quiet) (hclosed : s.closer = .done) :
    s.gone id ∨ (s.timer = .sleeping ∧ s.claim = .free ∧ suspended s₀ s id) ∨ moved s₀ s id := by
  cases hdisposed : (s.arcs id).disposed with
  | true => exact .inl (h.gone hquiet hdisposed)
  | false =>
    right
    have hbyId := h.byId.mpr (.inl (h.disposed.mpr hdisposed))
    have hplaced := h.placed hdisposed
    rcases hquiet.2.2.1 with hfree | ⟨new, hdone⟩
    · left
      simp only [State.placed, hfree, waits, hclosed] at hplaced
      obtain ⟨hhome, haway, htimer⟩ := hplaced
      rcases hquiet.2.1 with hoff | hsleeping | hover
      · simp [hoff] at htimer
      · simp only [hsleeping] at htimer
        obtain ⟨t, ht⟩ := Option.ne_none_iff_exists'.mp htimer
        refine ⟨hsleeping, hfree, hbyId, hdisposed, hhome, haway, ?_, h.counters hdisposed⟩
        rw [ht, (hstage.departed t ht).1]
      · simp [hover] at htimer
    · right
      simp only [State.placed, hdone] at hplaced
      exact ⟨new, hdone, hbyId, hdisposed, hplaced, h.counters hdisposed⟩

/-- A wrong token changes nothing. -/
theorem Stage.wrong (h : Stage s₀ s) (new : Conn) {token : Token} (hwrong : token ≠ s₀.token) :
    s.attempt new token = s ∧ s.late new token = s := by
  rw [← h.token] at hwrong
  constructor
  · unfold State.attempt
    rw [if_neg]
    intro hfound
    exact hwrong (h.departed _ hfound).1
  · unfold State.late
    split
    · rename_i kept ids hexpired
      rw [if_neg]
      rintro rfl
      exact hwrong (h.expired _ _ hexpired)
    · rfl

end State

/-- Reattach and the end of the grace period are exclusive. Once nothing runs, an observer that `home`
owned is disposed, or moved to the one connection that claimed the record; it waits only while the
timer sleeps and nobody has claimed it. -/
theorem reattached_or_disposed {tr : List (Act × Unit)} (hopen : s₀.Open)
    (hrun : (machine.only fun s a => s.timely a = true).Run s₀ tr s) :
    (∀ id, s₀.owns id → s.quiet → s.closer = .done →
      (s.timer = .over ∨ s.claim ≠ .free →
        (State.moved s₀ s id ∨ s.gone id) ∧ ¬ (State.moved s₀ s id ∧ s.gone id)) ∧
      (s.timer ≠ .over → s.claim = .free → State.suspended s₀ s id ∨ s.gone id)) ∧
      ∀ new token, token ≠ s₀.token → s.attempt new token = s ∧ s.late new token = s := by
  obtain ⟨hstage, hfate⟩ : State.Stage s₀ s ∧ ∀ id, s₀.owns id → State.Fate s₀ s id := by
    refine hrun.invariant (I := fun s => State.Stage s₀ s ∧ ∀ id, s₀.owns id → State.Fate s₀ s id)
      ⟨State.Stage.start hopen, fun id hid => State.Fate.start hopen hid⟩ ?_
    rintro s a r s' ⟨hstage, hfate⟩ ⟨ht, hstep⟩
    exact ⟨hstage.step ht hstep, fun id hid => (hfate id hid).step hstage ht hstep⟩
  refine ⟨?_, fun new token hwrong => hstage.wrong new hwrong⟩
  intro id hid hquiet hclosed
  have hsettled := (hfate id hid).settled hstage hquiet hclosed
  refine ⟨?_, ?_⟩
  · intro hran
    refine ⟨?_, ?_⟩
    · rcases hsettled with hgone | ⟨hsleeping, hfree, _⟩ | hmoved
      · exact .inr hgone
      · rcases hran with hover | hclaimed
        · rw [hsleeping] at hover
          cases hover
        · exact absurd hfree hclaimed
      · exact .inl hmoved
    · rintro ⟨⟨_, _, hlive, _⟩, hgone, _⟩
      rw [hlive] at hgone
      cases hgone
  · intro _ hfree
    rcases hsettled with hgone | ⟨_, _, hsuspended⟩ | ⟨new, hdone, _⟩
    · exact .inr hgone
    · exact .inl hsuspended
    · rw [hfree] at hdone
      cases hdone

/-! ### The timer of a short grace period -/

/-- Connection 1 owns one observer. -/
def exampleState : State where
  home := 1
  token := 101
  retains := true
  arcs := fun _ => { connection := 1, connected := true, disposed := false, fires := 3, inactive := 0, queued := 0 }
  byId := fun id => id = "a"
  byConnection := fun c => if c = 1 then ["a"] else []
  departed := none
  tombstones := []
  expired := none
  closer := .idle
  timer := .off
  claim := .free
  disposal := fun _ => .none
  heirs := []

theorem exampleState_open : exampleState.Open := by
  constructor <;> simp [exampleState]
  grind -ring -linarith

def exampleStep (s : State) (a : Act) : Option (State × Unit) := (s.step a).map (·, ())

/-- Connection 2 reattaches. -/
theorem reattached_or_disposed_claimed : ∃ tr s, (machine.only fun s a => s.timely a = true).Run exampleState tr s ∧
    s.quiet ∧ (State.moved exampleState s "a" ∨ s.gone "a") ∧ ¬ s.gone "a" := by
  have hexec : ∃ tr s, Machine.exec (fun s a => if s.timely a then exampleStep s a else none) exampleState
      [.close, .closer, .closer, .closer, .attempt 2 101, .claim, .claim, .claim, .claim, .claim, .claim, .claim, .claim,
        .claim, .timer] = some (tr, s) ∧ s.quiet ∧ s.closer = .done ∧ s.timer = .over ∧ s.byId "a" = true :=
    ⟨_, _, rfl, ⟨.inr rfl, .inr (.inr rfl), .inr ⟨2, rfl⟩, fun _ => .inl rfl⟩, rfl, rfl, rfl⟩
  obtain ⟨tr, s, hexec, hquiet, hclosed, hover, hlive⟩ := hexec
  have hrun := Machine.Run.of_exec (M := machine.only fun s a => s.timely a = true) (by
    intro s a s' r h
    split at h
    · rename_i htimely
      exact ⟨htimely, by simpa [exampleStep, machine] using h⟩
    · cases h) hexec
  have hends := ((reattached_or_disposed exampleState_open hrun).1 "a" ⟨rfl, rfl⟩ hquiet hclosed).1 (.inl hover)
  refine ⟨tr, s, hrun, hquiet, hends.1, ?_⟩
  rintro ⟨hgone, _⟩
  rw [hlive] at hgone
  cases hgone

/-- The timer fires before the record is inserted: nobody disposes the observer any more. -/
theorem timer_before_record : ∃ tr s, machine.Run exampleState tr s ∧ s.quiet ∧ s.closer = .done ∧ s.timer = .over ∧
    ¬ (State.moved exampleState s "a" ∨ s.gone "a") := by
  have hexec : ∃ tr s, Machine.exec exampleStep exampleState [.close, .closer, .closer, .timer, .closer] = some (tr, s) ∧
      s.quiet ∧ s.closer = .done ∧ s.timer = .over ∧ s.claim = .free ∧ s.byId "a" = true :=
    ⟨_, _, rfl, ⟨.inr rfl, .inr (.inr rfl), .inl rfl, fun _ => .inl rfl⟩, rfl, rfl, rfl, rfl⟩
  obtain ⟨tr, s, hexec, hquiet, hclosed, hover, hfree, hlive⟩ := hexec
  refine ⟨tr, s, Machine.Run.of_exec (by intro s a s' r h; simpa [exampleStep, machine] using h) hexec, hquiet, hclosed,
    hover, ?_⟩
  rintro (⟨new, hdone, _⟩ | ⟨hgone, _⟩)
  · rw [hfree] at hdone
    cases hdone
  · rw [hlive] at hgone
    cases hgone

end Iii.Observers.Sections
