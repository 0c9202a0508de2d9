import Iii.Configuration.Steps

/-! The cache and the adapter agree.

While an operation runs, the cache is compared not as it is but as the operation will leave it:
`view`. In every reachable state the view of an id is what the adapter holds, or a change of the
id is queued; and it is never older than the last write of the store. -/
namespace Iii.Configuration
open Lib

variable {V : Type}

namespace State

/-- What the cache will hold when the operation that has the lock ends. An entry that is still
to be read from the adapter will be what it holds. -/
def view (s : State V) (id : String) : Option (Entry V) :=
  match s.running with
  | some (.registered entry _ _) => if id = entry.id then some entry else s.entries id
  | some (.stored entry _) => if id = entry.id then some entry else s.entries id
  | some (.deleted i removed) => if id = i ∧ removed.isSome then none else s.entries id
  | some (.migrated source target _ entry) =>
    if id = target then entry else if id = source then none else s.entries id
  | some (.reconciling ids) => if id ∈ ids then s.adapter id else s.entries id
  | some (.delivering change) => if id = change.id then s.adapter id else s.entries id
  | some (.delivered change current) => if id = change.id then current else s.entries id
  | _ => s.entries id

def queued (s : State V) (id : String) : Prop := ∃ change ∈ s.queue, change.id = id

end State

structure Agrees (s : State V) : Prop where
  keyed : Keyed s.adapter
  newest : ∀ id, s.adapter id ∈ s.recent id
  current : ∀ id, s.view id = s.adapter id ∨ s.queued id
  recent : ∀ id, s.view id ∈ s.recent id

namespace Agrees
variable {J : Values V} {s s' : State V} {r : Option (Report V)}

theorem primed {stored : String → Option (Entry V)} (h : Keyed stored) : Agrees (State.primed stored) := by
  refine ⟨h, ?_, ?_, ?_⟩ <;> simp [State.primed, State.view]

/-- Only the view, the adapter and the queue matter. -/
theorem congr (h : Agrees s) (hadapter : s'.adapter = s.adapter) (hrecent : s'.recent = s.recent)
    (hqueue : s'.queue = s.queue) (hview : ∀ id, s'.view id = s.view id) : Agrees s' := by
  obtain ⟨h1, h2, h3, h4⟩ := h
  refine ⟨hadapter ▸ h1, fun id => ?_, fun id => ?_, fun id => ?_⟩
  · rw [hadapter, hrecent]
    exact h2 id
  · rw [hview, hadapter, State.queued, hqueue]
    exact h3 id
  · rw [hview, hrecent]
    exact h4 id

theorem requested {q : Request V} (h : Agrees s) (hfree : s.running = none)
    (hstep : Requested J s q s' r) : Agrees s' := by
  have hview (id) : s.view id = s.entries id := by simp [State.view, hfree]
  cases hstep with
  | refused q error => exact h
  | opened q point hopens =>
    refine h.congr rfl rfl rfl fun id => ?_
    rw [hview]
    cases hopens <;> rfl
  | overridden id value entry old => exact h.congr rfl rfl rfl fun id => rfl
  | delivers change queue hqueue =>
    have hpoint (id) : State.view ({ s with queue := queue }.goto (some (.delivering change))) id =
        if id = change.id then s.adapter id else s.entries id := rfl
    obtain ⟨h1, h2, h3, h4⟩ := h
    refine ⟨h1, h2, fun id => ?_, fun id => ?_⟩
    · rw [hpoint]
      by_cases hid : id = change.id
      · exact .inl (if_pos hid)
      · rw [if_neg hid, ← hview]
        refine (h3 id).imp_right fun ⟨c, hc, hcid⟩ => ⟨c, ?_, hcid⟩
        rw [hqueue] at hc
        rcases List.mem_cons.mp hc with rfl | hc
        · exact absurd hcid.symm hid
        · exact hc
    · rw [hpoint, ← hview]
      split
      · exact h2 id
      · exact h4 id

variable {point : Point V}

theorem called (h : Agrees s) (hrunning : s.running = some point) (hstep : Called s point s' r) :
    Agrees s' := by
  cases hstep with
  | failed point hpoint =>
    refine h.congr rfl rfl rfl fun id => ?_
    cases point <;> first | exact hpoint.elim | simp [State.view, hrunning, State.goto]
  | broken source target first second hfirst hsecond =>
    obtain ⟨h1, h2, h3, h4⟩ := h
    simp only [State.view, hrunning] at h3 h4
    cases first <;> cases second <;> constructor <;>
      simp only [State.goto, State.view, State.commitSome, State.commit, State.queued, Keyed] <;>
      grind -ring -linarith [Function.update_apply, State.queued, Keyed]
  | _ =>
    obtain ⟨h1, h2, h3, h4⟩ := h
    simp only [State.view, hrunning] at h3 h4
    constructor <;>
      simp only [State.goto, State.view, State.commit, State.settle, State.cache, State.queued, Keyed] <;>
      grind -ring -linarith [Function.update_apply, State.queued, Keyed]

/-- The operation leaves the cache as it was to. -/
theorem view_finished [DecidableEq V] (hrunning : s.running = some point)
    (hstep : s.finish point = some (s', r)) (id : String) : s'.entries id = s.view id := by
  cases point with
  | registered entry purpose created =>
    cases hstep
    simp [State.view, hrunning, State.goto, State.cache, Function.update_apply]
  | stored entry old =>
    cases hstep
    simp [State.view, hrunning, State.goto, State.cache, State.override, Function.update_apply]
  | deleted i removed =>
    cases hstep
    cases removed <;>
      simp [State.view, hrunning, State.goto, State.cache, State.override, Function.update_apply]
  | migrated source target action entry =>
    cases hstep
    simp only [State.view, hrunning, State.goto, State.migrated]
    split
    · simp only [State.cache, Function.update_apply]
      grind -ring -linarith
    · split <;> simp only [State.cache, State.override, Function.update_apply]
  | delivered change current =>
    simp only [State.finish, Option.some.injEq, Prod.mk.injEq] at hstep
    obtain ⟨rfl, -⟩ := hstep
    simp only [State.view, hrunning, State.goto, applied_fst]
    split <;> simp [State.cache, State.override, Function.update_apply]
  | _ => cases hstep

theorem finish_rest [DecidableEq V] (hstep : s.finish point = some (s', r)) :
    s'.running = none ∧ s'.adapter = s.adapter ∧ s'.recent = s.recent ∧ s'.queue = s.queue ∧
      s'.origin = s.origin := by
  cases point with
  | migrated source target action entry =>
    cases hstep
    simp only [State.goto, State.migrated]
    split
    · simp [State.cache]
    · split <;> simp [State.cache, State.override]
  | delivered change current =>
    simp only [State.finish, Option.some.injEq, Prod.mk.injEq] at hstep
    obtain ⟨rfl, -⟩ := hstep
    simp only [State.goto, applied_fst]
    split <;> simp [State.cache, State.override]
  | deleted i removed =>
    cases hstep
    cases removed <;> simp [State.goto, State.cache, State.override]
  | registered => cases hstep; simp [State.goto, State.cache]
  | stored => cases hstep; simp [State.goto, State.cache, State.override]
  | _ => cases hstep

theorem finished [DecidableEq V] (h : Agrees s) (hrunning : s.running = some point)
    (hstep : s.finish point = some (s', r)) : Agrees s' := by
  obtain ⟨hfree, hadapter, hrecent, hqueue, -⟩ := finish_rest hstep
  refine h.congr hadapter hrecent hqueue fun id => ?_
  rw [← view_finished hrunning hstep id]
  simp [State.view, hfree]

theorem captured {id : String} {entry : Option (Entry V)} {change : ExternalChange V} (h : Agrees s)
    (hchange : change.id = id) (hid : ∀ x, entry = some x → x.id = id) : Agrees (s.capture id entry change) := by
  obtain ⟨h1, h2, h3, h4⟩ := h
  -- what the running operation is still to read, it will read as it is now
  have hview (i : String) : (s.capture id entry change).view i = s.view i ∨
      (s.capture id entry change).view i = (s.capture id entry change).adapter i := by
    simp only [State.view, State.capture]
    split <;> grind -ring -linarith
  have hadapter (i : String) : (s.capture id entry change).adapter i = if i = id then entry else s.adapter i :=
    Function.update_apply ..
  have hrecent (i : String) :
      (s.capture id entry change).recent i = if i = id then entry :: s.recent i else s.recent i := by
    simp only [State.capture, Function.update_apply]
    grind -ring -linarith
  have hqueued (i : String) : (s.capture id entry change).queued i ↔ s.queued i ∨ i = id := by
    simp only [State.queued, State.capture, List.mem_append, List.mem_singleton]
    grind -ring -linarith
  have hother (i : String) (hi : i ≠ id) : (s.capture id entry change).view i = s.view i := by
    simp only [State.view, State.capture]
    split <;> grind -ring -linarith [Function.update_apply]
  constructor
  · intro i x hx
    grind -ring -linarith [Keyed]
  · grind -ring -linarith
  · grind -ring -linarith
  · grind -ring -linarith

theorem step [DecidableEq V] {a : Act V} (h : Agrees s) (hstep : s.step J a = some (s', r)) : Agrees s' := by
  cases a with
  | request q =>
    simp only [State.step] at hstep
    split at hstep
    · rename_i hfree
      exact h.requested (Option.isNone_iff_eq_none.mp hfree) (Configuration.requested hstep)
    · cases hstep
  | call o =>
    obtain ⟨point, hrunning, hcall⟩ := Option.bind_eq_some_iff.mp hstep
    exact h.called hrunning (Configuration.called hcall)
  | finish =>
    obtain ⟨point, hrunning, hfinish⟩ := Option.bind_eq_some_iff.mp hstep
    exact h.finished hrunning hfinish
  | edit e =>
    obtain ⟨s'', hedit, hs⟩ := Option.map_eq_some_iff.mp hstep
    cases hs
    obtain ⟨entry, change, rfl, hid, -, hentry⟩ := edited h.keyed hedit
    exact h.captured hid hentry

theorem run [DecidableEq V] {stored : String → Option (Entry V)} (hstored : Keyed stored)
    {tr : List (Act V × Option (Report V))} (hrun : (machine J).Run (.primed stored) tr s) : Agrees s :=
  hrun.invariant (.primed hstored) fun h hstep => h.step hstep

end Agrees

end Iii.Configuration
