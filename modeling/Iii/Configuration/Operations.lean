import Iii.Configuration.Agree

/-! Whole operations.

An operation has the lock from its first step to its last, and in between only the watcher does
anything else. So what an operation leaves is what its own steps did, and what was edited. -/
namespace Iii.Configuration
open Lib

variable {V : Type}

def Edited (tr : List (Act V × Option (Report V))) (id : String) : Prop :=
  ∃ e r, (Act.edit e, r) ∈ tr ∧ e.id = id

/-- Nothing but the watcher has written. -/
def Untouched (s s' : State V) (tr : List (Act V × Option (Report V))) : Prop :=
  s'.entries = s.entries ∧ s'.runtimeValues = s.runtimeValues ∧
    ∀ id, ¬Edited tr id → s'.adapter id = s.adapter id

/-- About to call the adapter for the first time. -/
def Point.isOpening (q : Request V) : Point V → Prop
  | .registering _ _ => True
  | .setting _ _ => True
  | .deleting _ => True
  | .migrating source target => q = .migrate source target
  | _ => False

/-- The adapter has done it, and the cache follows. -/
def Point.isCommitted : Point V → Prop
  | .registered _ _ _ => True
  | .stored _ _ => True
  | .deleted _ _ => True
  | .migrated _ _ _ _ => True
  | _ => False

/-- How far an operation has come that began in `s`: it has not called the adapter, it is past
failing, or it is reading again what the adapter holds. -/
inductive Phase (s : State V) (q : Request V) (tr : List (Act V × Option (Report V))) (s' : State V) :
    Point V → Prop where
  | opened {point : Point V} (hpoint : point.isOpening q) (h : Untouched s s' tr) : Phase s q tr s' point
  | past {point : Point V} (hpoint : point.isCommitted) : Phase s q tr s' point
  | reconciling {source target : String} {ids : List String} (hq : q = .migrate source target)
      (hruntime : s'.runtimeValues = s.runtimeValues)
      (hothers : ∀ id, id ≠ source → id ≠ target → s'.entries id = s.entries id)
      (hids : ∀ id ∈ ids, id = source ∨ id = target)
      (hread : ∀ id, id = source ∨ id = target → id ∈ ids ∨ (¬Edited tr id → s'.entries id = s'.adapter id)) :
      Phase s q tr s' (.reconciling ids)
  | delivering {change : ExternalChange V} (hq : q = .deliver) : Phase s q tr s' (.delivering change)
  | delivered {change : ExternalChange V} {current : Option (Entry V)} (hq : q = .deliver)
      (hcurrent : ¬Edited tr change.id → current = s'.adapter change.id) :
      Phase s q tr s' (.delivered change current)

variable {tr : List (Act V × Option (Report V))}

theorem edited_cons {a : Act V} {r : Option (Report V)} {id : String} :
    Edited ((a, r) :: tr) id ↔ (∃ e, a = .edit e ∧ e.id = id) ∨ Edited tr id := by
  unfold Edited
  constructor
  · rintro ⟨e, r', hmem, hid⟩
    rcases List.mem_cons.mp hmem with heq | hmem
    · cases heq
      exact .inl ⟨e, rfl, hid⟩
    · exact .inr ⟨e, r', hmem, hid⟩
  · rintro (⟨e, rfl, hid⟩ | ⟨e, r', hmem, hid⟩)
    · exact ⟨e, r, List.mem_cons_self .., hid⟩
    · exact ⟨e, r', List.mem_cons_of_mem _ hmem, hid⟩

namespace Phase
variable {s s' s'' : State V} {q : Request V} {tr : List (Act V × Option (Report V))} {point : Point V}

theorem captured (h : Phase s q tr s' point) (e : Edit V) (entry : Option (Entry V)) (change : ExternalChange V)
    (r : Option (Report V)) : Phase s q ((.edit e, r) :: tr) (s'.capture e.id entry change) point := by
  have hedited (id : String) (h : ¬Edited ((Act.edit e, r) :: tr) id) :
      ¬Edited tr id ∧ (s'.capture e.id entry change).adapter id = s'.adapter id := by
    rw [edited_cons, not_or] at h
    refine ⟨h.2, Function.update_of_ne (fun hid => h.1 ⟨e, rfl, hid.symm⟩) _ _⟩
  cases h with
  | opened hpoint h =>
    refine .opened hpoint ⟨h.1, h.2.1, fun id hid => ?_⟩
    rw [(hedited id hid).2]
    exact h.2.2 id (hedited id hid).1
  | past hpoint => exact .past hpoint
  | reconciling hq hruntime hothers hids hread =>
    refine .reconciling hq hruntime hothers hids fun id hid => ?_
    refine (hread id hid).imp_right fun h he => ?_
    rw [(hedited id he).2]
    exact h (hedited id he).1
  | delivering hq => exact .delivering hq
  | delivered hq hcurrent =>
    refine .delivered hq fun he => ?_
    rw [(hedited _ he).2]
    exact hcurrent (hedited _ he).1

theorem called {o : Outcome V} (h : Phase s q tr s' point) (hstep : Called s' point s'' none) :
    ∃ next, s''.running = some next ∧ Phase s q ((.call o, none) :: tr) s'' next := by
  have hedited (id : String) : Edited ((Act.call o, none) :: tr) id ↔ Edited tr id := by
    simp [edited_cons]
  cases h with
  | opened hpoint h =>
    cases hstep with
    | broken source target first second hfirst hsecond =>
      refine ⟨_, rfl, .reconciling hpoint ?_ ?_ (by simp) fun id hid => .inl (by simpa using hid)⟩
      · cases first <;> cases second <;> exact h.2.1
      · intro id _ _
        cases first <;> cases second <;> exact congrFun h.1 id
    | reconcile => exact hpoint.elim
    | deliver => exact hpoint.elim
    | _ => exact ⟨_, rfl, .past trivial⟩
  | past hpoint => cases hstep <;> exact hpoint.elim
  | reconciling hq hruntime hothers hids hread =>
    cases hstep with
    | reconcile id ids hne =>
      refine ⟨_, rfl, .reconciling hq hruntime (fun i h1 h2 => ?_)
        (fun i hi => hids i (List.mem_cons_of_mem _ hi)) ?_⟩
      · have hid : i ≠ id := by
          rintro rfl
          exact (hids i (List.mem_cons_self ..)).elim h1 h2
        exact (Function.update_of_ne hid _ _).trans (hothers i h1 h2)
      · intro i hi
        rw [hedited]
        by_cases hid : i = id
        · subst hid
          exact .inr fun _ => Function.update_self ..
        · rcases hread i hi with hmem | h
          · exact .inl ((List.mem_cons.mp hmem).resolve_left hid)
          · exact .inr fun he => (Function.update_of_ne hid _ _).trans (h he)
  | delivering hq =>
    cases hstep with
    | deliver change => exact ⟨_, rfl, .delivered hq fun _ => rfl⟩
  | delivered hq hcurrent => cases hstep

theorem requested {J : Values V} (hstep : Requested J s q s' none) :
    ∃ point, s'.running = some point ∧ Phase s q [] s' point := by
  cases hstep with
  | opened q point hopens =>
    have hsame : Untouched s (s.goto (some point)) [] := ⟨rfl, rfl, fun _ _ => rfl⟩
    exact ⟨point, rfl, .opened (by cases hopens <;> trivial) hsame⟩
  | delivers change queue hqueue => exact ⟨_, rfl, .delivering rfl⟩

end Phase

variable [DecidableEq V] {J : Values V}

/-- An operation: refused or done at once, or from the step that gets the lock to the one that
returns. What happens in between is in the trace. -/
inductive Operation (J : Values V) (s : State V) (q : Request V) :
    List (Act V × Option (Report V)) → Report V → State V → Prop where
  | atOnce {r : Report V} {s' : State V} (h : (machine J).Step s (.request q) (some r) s') :
      Operation J s q [] r s'
  | whole {tr : List (Act V × Option (Report V))} {a : Act V} {r : Report V} {s₁ s₂ s' : State V}
      (hfirst : (machine J).Step s (.request q) none s₁) (hrun : (machine J).Run s₁ tr s₂)
      (hnone : ∀ x ∈ tr, x.2 = none) (hlast : (machine J).Step s₂ a (some r) s') :
      Operation J s q tr r s'

/-- What a step does to an operation that has the lock. -/
inductive Goes (J : Values V) (s : State V) (point : Point V) : Act V → Option (Report V) → State V → Prop where
  | call {o : Outcome V} {r : Option (Report V)} {s' : State V} (h : Called s point s' r) :
      Goes J s point (.call o) r s'
  | finish {r : Option (Report V)} {s' : State V} (h : s.finish point = some (s', r)) :
      Goes J s point .finish r s'
  | edit (e : Edit V) (entry : Option (Entry V)) (change : ExternalChange V) :
      Goes J s point (.edit e) none (s.capture e.id entry change)

theorem goes {s s' : State V} {point : Point V} {a : Act V} {r : Option (Report V)}
    (hrunning : s.running = some point) (h : (machine J).Step s a r s') : Goes J s point a r s' := by
  change s.step J a = some (s', r) at h
  cases a with
  | request q => simp [State.step, hrunning] at h
  | call o =>
    simp only [State.step, hrunning, Option.bind_some] at h
    exact .call (called h)
  | finish =>
    simp only [State.step, hrunning, Option.bind_some] at h
    exact .finish h
  | edit e =>
    obtain ⟨s'', hedit, hs⟩ := Option.map_eq_some_iff.mp h
    cases hs
    obtain ⟨entry, change, rfl⟩ := edit_captures hedit
    exact .edit e entry change

/-- What an operation has done before it returns. -/
theorem operation_phase {s s₁ s₂ : State V} {q : Request V} (hfirst : (machine J).Step s (.request q) none s₁)
    (hrun : (machine J).Run s₁ tr s₂) (hnone : ∀ x ∈ tr, x.2 = none) :
    ∃ point, s₂.running = some point ∧ Phase s q tr s₂ point := by
  induction hrun with
  | nil =>
    change s.step J (.request q) = _ at hfirst
    simp only [State.step] at hfirst
    split at hfirst
    · exact Phase.requested (requested hfirst)
    · cases hfirst
  | step hrun hstep ih =>
    obtain ⟨point, hrunning, hphase⟩ := ih fun x hx => hnone x (List.mem_cons_of_mem _ hx)
    obtain rfl := hnone _ (List.mem_cons_self ..)
    cases goes hrunning hstep with
    | call hcall => exact hphase.called hcall
    | finish hfinish => cases point <;> simp [State.finish] at hfinish
    | edit e entry change => exact ⟨point, hrunning, hphase.captured e entry change none⟩

/-- An operation that fails: nothing of its own is left, or it is a migration that has read both
its ids again. -/
theorem operation_failed {s s' : State V} {q : Request V} {error : StoreError}
    (h : Operation J s q tr (.failed error) s') :
    Untouched s s' tr ∨ ∃ source target, q = .migrate source target ∧ s'.runtimeValues = s.runtimeValues ∧
      (∀ id, id ≠ source → id ≠ target → s'.entries id = s.entries id) ∧
      ∀ id, id = source ∨ id = target → ¬Edited tr id → s'.entries id = s'.adapter id := by
  cases h with
  | atOnce hfirst =>
    change s.step J (.request q) = _ at hfirst
    simp only [State.step] at hfirst
    split at hfirst
    · cases requested hfirst with
      | refused => exact .inl ⟨rfl, rfl, fun _ _ => rfl⟩
    · cases hfirst
  | whole hfirst hrun hnone hlast =>
    obtain ⟨point, hrunning, hphase⟩ := operation_phase hfirst hrun hnone
    cases goes hrunning hlast with
    | finish hfinish =>
      cases point <;> simp [State.finish] at hfinish
      split at hfinish <;> simp at hfinish
    | call hcall =>
      cases hphase with
      | opened hpoint h =>
        cases hcall with
        | failed => exact .inl h
        | reconcileLast => exact hpoint.elim
      | past hpoint =>
        cases hcall with
        | failed _ hcalls => cases point <;> first | exact hcalls.elim | exact hpoint.elim
        | reconcileLast => exact hpoint.elim
      | delivering => cases hcall with | failed _ hcalls => exact hcalls.elim
      | delivered => cases hcall with | failed _ hcalls => exact hcalls.elim
      | reconciling hq hruntime hothers hids hread =>
        cases hcall with
        | failed _ hcalls => exact hcalls.elim
        | reconcileLast id =>
          refine .inr ⟨_, _, hq, hruntime, fun i h1 h2 => ?_, fun i hi he => ?_⟩
          · have hid : i ≠ id := by
              rintro rfl
              exact (hids i (List.mem_singleton_self _)).elim h1 h2
            exact (Function.update_of_ne hid _ _).trans (hothers i h1 h2)
          · by_cases hid : i = id
            · subst hid
              exact Function.update_self ..
            · refine (Function.update_of_ne hid _ _).trans ?_
              exact (hread i hi).elim (fun hmem => absurd (List.mem_singleton.mp hmem) hid) fun h => h he

theorem operation_delivered {s s' : State V} {id : String} {fanout : Bool}
    (h : Operation J s .deliver tr (.applied id fanout) s') (hid : ¬Edited tr id) :
    s'.entries id = s'.adapter id := by
  cases h with
  | atOnce hfirst =>
    change s.step J (.request .deliver) = _ at hfirst
    simp only [State.step] at hfirst
    split at hfirst
    · cases requested hfirst
    · cases hfirst
  | whole hfirst hrun hnone hlast =>
    obtain ⟨point, hrunning, hphase⟩ := operation_phase hfirst hrun hnone
    cases goes hrunning hlast with
    | call hcall => cases hcall
    | finish hfinish =>
      have hview := Agrees.view_finished hrunning hfinish id
      obtain ⟨-, hadapter, -⟩ := Agrees.finish_rest hfinish
      cases hphase with
      | delivered hq hcurrent =>
        simp only [State.finish, Option.some.injEq, Prod.mk.injEq, Report.applied.injEq] at hfinish
        obtain ⟨-, rfl, -⟩ := hfinish
        rw [hview, hadapter]
        simp only [State.view, hrunning, if_true]
        exact hcurrent hid
      | opened hpoint => cases point <;> first | exact hpoint.elim | cases hfinish
      | past hpoint =>
        cases point <;> simp [State.finish] at hfinish
        · split at hfinish <;> simp at hfinish
        · exact hpoint.elim
      | reconciling hq => cases hq
      | delivering hq => cases hfinish

/-- In every reachable state: with the lock free, an id that the cache and the adapter differ on
has a change that is queued, and what is cached is no older than the last write of the store; an
operation that fails leaves nothing behind, but for a migration, which leaves its two ids as the
adapter has them; and a change that is delivered leaves its id as the adapter has it, unless the
watcher takes in another edit meanwhile. -/
theorem cache_agrees {stored : String → Option (Entry V)} (hstored : Keyed stored)
    {tr : List (Act V × Option (Report V))} {s : State V} (hrun : (machine J).Run (.primed stored) tr s) :
    (s.running = none → (s.queue = [] → s.entries = s.adapter) ∧
      ∀ id, (s.entries id = s.adapter id ∨ s.queued id) ∧ s.entries id ∈ s.recent id) ∧
    (∀ q mid error s', Operation J s q mid (.failed error) s' → Untouched s s' mid ∨
      ∃ source target, q = .migrate source target ∧ s'.runtimeValues = s.runtimeValues ∧
        (∀ id, id ≠ source → id ≠ target → s'.entries id = s.entries id) ∧
        ∀ id, id = source ∨ id = target → ¬Edited mid id → s'.entries id = s'.adapter id) ∧
    (∀ mid id fanout s', Operation J s .deliver mid (.applied id fanout) s' → ¬Edited mid id →
      s'.entries id = s'.adapter id) := by
  have hagrees := Agrees.run hstored hrun
  refine ⟨fun hfree => ?_, fun _ _ _ _ h => operation_failed h, fun _ _ _ _ h => operation_delivered h⟩
  have hview (id : String) : s.view id = s.entries id := by simp [State.view, hfree]
  have hid (id : String) : (s.entries id = s.adapter id ∨ s.queued id) ∧ s.entries id ∈ s.recent id := by
    rw [← hview]
    exact ⟨hagrees.current id, hagrees.recent id⟩
  refine ⟨fun hqueue => ?_, hid⟩
  funext id
  rcases (hid id).1 with heq | ⟨change, hmem, -⟩
  · exact heq
  · rw [hqueue] at hmem
    cases hmem

/-! Numbers for values: zero is null, and every schema takes every value. -/

def numbers : Values Nat := { null := 0, accepts := fun _ _ => true }

def port (value : Nat) : Entry Nat where
  id := "port"
  name := "Port"
  description := "Where it listens"
  schema := 1
  value
  metadata := none

def ports (id : String) : Option (Entry Nat) := if id = "port" then some (port 1) else none

theorem ports_keyed : Keyed ports := by
  intro id entry h
  unfold ports at h
  split at h
  · rename_i hid
    cases h
    exact hid.symm
  · cases h

theorem cache_agrees_set :
    ∃ s, ((machine numbers).Run (.primed ports)
        [(.finish, some (.set (port 2) (some 1))), (.call .done, none), (.request (.set "port" 2), none)] s) ∧
      s.entries "port" = some (port 2) ∧ s.entries = s.adapter := by
  have hrun := Machine.Run.step (M := machine numbers) (.step (.step .nil
    (show State.step numbers (.primed ports) (.request (.set "port" 2)) = _ from rfl))
    (show State.step numbers _ (.call .done) = _ from rfl)) (show State.step numbers _ .finish = _ from rfl)
  exact ⟨_, hrun, rfl, ((cache_agrees ports_keyed hrun).1 rfl).1 rfl⟩

/-- A new port is on disk, and the watcher has seen it. -/
def portEdited : State Nat := (State.primed ports).capture "port" (some (port 2)) (.updated (port 2))

/-- The watcher takes in another edit after a delivery has read the adapter, and before it ends. -/
theorem delivered_before_edit : ∃ tr mid s s', (machine numbers).Run (.primed ports) tr s ∧
    Operation numbers s .deliver mid (.applied "port" true) s' ∧ s'.entries "port" = some (port 2) ∧
    s'.adapter "port" = some (port 3) := by
  have hedit : (machine numbers).Run (.primed ports) [(.edit (.put (port 2)), none)] portEdited :=
    .step .nil (show State.step numbers _ _ = some _ from rfl)
  have hdelivered := Operation.whole (J := numbers) (s := portEdited)
    (show State.step numbers _ (.request .deliver) = some (_, none) from rfl)
    (.step (.step .nil (show State.step numbers _ (.call .done) = some (_, none) from rfl))
      (show State.step numbers _ (.edit (.put (port 3))) = some (_, none) from rfl))
    (by simp) (show State.step numbers _ .finish = some (_, some _) from rfl)
  exact ⟨_, _, _, _, hedit, hdelivered, rfl, rfl⟩

end Iii.Configuration
