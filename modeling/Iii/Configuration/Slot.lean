import Mathlib.Data.List.Basic

/-! One key of a cached store, with its override.

A key has a stored value, a cached one, and perhaps an override. Others change what is stored and
queue the new value; the cache takes it in when the change is delivered, and an override goes
when the change still stands and was not cached before. Two things can take a value into the cache
without that: a read after a failure, and the delivery of a change that a later one has
superseded. `Fair` is what holds as long as neither happens to a key with an override and changes
that are queued: with nothing queued, an override does not outlive a change of what is stored. -/
namespace Iii.Configuration

inductive Stage (V : Type) where
  | idle
  | rereading
  | delivering (v : Option V)
  | delivered (v current : Option V)

/-- `origin` is what was stored at the last write or override, and `fanned` whether the last
delivery was announced. -/
structure Slot (V : Type) where
  stored : Option V
  cached : Option V
  origin : Option V
  override : Option V
  fanned : Bool
  changes : List (Option V)
  stage : Stage V

namespace Slot
variable {V : Type}

inductive Step [DecidableEq V] : Slot V → Slot V → Prop where
  | edit (x : Slot V) (v : Option V) : Step x { x with stored := v, changes := x.changes ++ [v] }
  | commit (x : Slot V) (v : Option V) (hstage : x.stage = .idle) :
      Step x { x with stored := v, cached := v, origin := v }
  | drop (x : Slot V) (hstage : x.stage = .idle) : Step x { x with override := none }
  | override (x : Slot V) (v : V) (hstage : x.stage = .idle) (hcached : x.cached = x.stored ∨ x.changes ≠ []) :
      Step x { x with override := some v, origin := x.stored }
  | inherit (x : Slot V) (v : Option V) (hstage : x.stage = .idle) (horigin : x.cached = x.origin)
      (hcached : x.cached = x.stored ∨ x.changes ≠ []) : Step x { x with override := v }
  | fail (x : Slot V) (hstage : x.stage = .idle) : Step x { x with stage := .rereading }
  | failHalfway (x : Slot V) (v : Option V) (hstage : x.stage = .idle) :
      Step x { x with stored := v, origin := v, stage := .rereading }
  | reread (x : Slot V) (stage : Stage V) (hstage : x.stage = .rereading)
      (hnext : stage = .idle ∨ stage = .rereading) (hcalm : x.override = none ∨ x.changes = []) :
      Step x { x with stage := stage, cached := x.stored }
  | deliver (x : Slot V) (v : Option V) (rest : List (Option V)) (hstage : x.stage = .idle)
      (hchanges : x.changes = v :: rest) : Step x { x with stage := .delivering v, changes := rest }
  | read (x : Slot V) (v : Option V) (hstage : x.stage = .delivering v)
      (hcalm : x.override = none ∨ x.changes = []) : Step x { x with stage := .delivered v x.stored }
  | finish (x : Slot V) (v current : Option V) (hstage : x.stage = .delivered v current)
      (hcurrent : current = x.stored ∨ x.changes ≠ []) :
      Step x { x with
        stage := .idle
        cached := current
        override := if v = current ∧ x.cached ≠ current then none else x.override
        fanned := decide (v = current ∧ (x.cached ≠ current ∨ x.override = none)) }

/-- The changes that are not yet read, the last one last. -/
def pending (x : Slot V) : List (Option V) :=
  match x.stage with
  | .delivering v => v :: x.changes
  | _ => x.changes

/-- The last change that is not yet taken in is what is stored, unless it was written since. With
none left, an override has only outlived what it was laid over. -/
structure Fair (x : Slot V) : Prop where
  last : ∀ v, x.pending.getLast? = some v → v = x.stored ∨ x.stored = x.origin
  gone : (∀ v current, x.stage ≠ .delivered v current) → x.pending = [] → x.stored ≠ x.origin →
    x.override = none ∧ x.fanned = true
  overridden : x.override ≠ none → x.stage ≠ .rereading → (∀ v current, x.stage ≠ .delivered v current) →
    x.cached = x.origin ∨ x.stored = x.origin ∧ x.pending ≠ [] ∨ 2 ≤ x.pending.length
  read : ∀ v current, x.stage = .delivered v current →
    (x.changes = [] → v = x.stored ∨ x.stored = x.origin) ∧
      (x.override ≠ none → (x.cached = x.origin ∨ current = x.origin) ∧ (v = current ∨ current = x.origin))

theorem Fair.edit {x : Slot V} (h : Fair x) (v : Option V) :
    Fair { x with stored := v, changes := x.changes ++ [v] } := by
  have hpending : pending { x with stored := v, changes := x.changes ++ [v] } = x.pending ++ [v] := by
    simp only [pending]
    split <;> simp
  constructor
  · intro w hw
    rw [hpending, List.getLast?_append] at hw
    exact .inl (by simpa using hw.symm)
  · intro _ hnil
    rw [hpending] at hnil
    simp at hnil
  · intro hover hstage hread
    rw [hpending, List.length_append, List.length_singleton]
    rcases h.overridden hover hstage hread with hcached | ⟨-, hne⟩ | htwo
    · exact .inl hcached
    · have := List.length_pos_iff.mpr hne
      exact .inr (.inr (by omega))
    · exact .inr (.inr (by omega))
  · intro w current hstage
    refine ⟨fun hnil => ?_, (h.read w current hstage).2⟩
    simp at hnil

theorem Fair.step [DecidableEq V] {x x' : Slot V} (h : Fair x) (hstep : Step x x') : Fair x' := by
  cases hstep with
  | edit v => exact h.edit v
  | reread stage hstage hnext hcalm =>
    rcases x with ⟨stored, cached, origin, override, fanned, changes, stage'⟩
    obtain rfl : stage' = .rereading := hstage
    obtain ⟨h1, h2, h3, h4⟩ := h
    simp only [pending] at h1 h2 h3 h4
    rcases hnext with rfl | rfl <;> constructor <;> simp only [pending] <;> grind -ring -linarith
  | read v hstage hcalm =>
    rcases x with ⟨stored, cached, origin, override, fanned, changes, stage⟩
    obtain rfl : stage = .delivering v := hstage
    obtain ⟨h1, h2, h3, h4⟩ := h
    simp only [pending] at h1 h2 h3 h4
    have hlast : changes = [] → v = stored ∨ stored = origin := fun hnil => h1 v (by simp [hnil])
    constructor <;> simp only [pending] <;> grind -ring -linarith
  | finish v current hstage hcurrent =>
    rcases x with ⟨stored, cached, origin, override, fanned, changes, stage⟩
    obtain rfl : stage = .delivered v current := hstage
    obtain ⟨h1, h2, h3, h4⟩ := h
    simp only [pending] at h1 h2 h3 h4
    constructor <;> simp only [pending] <;> grind -ring -linarith
  | _ =>
    rcases x with ⟨stored, cached, origin, override, fanned, changes, stage⟩
    obtain rfl : stage = .idle := by assumption
    obtain ⟨h1, h2, h3, h4⟩ := h
    simp only [pending] at h1 h2 h3 h4
    constructor <;> simp only [pending] <;> grind -ring -linarith

end Slot

end Iii.Configuration
