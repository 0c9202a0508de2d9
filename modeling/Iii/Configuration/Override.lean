import Iii.Configuration.Keep
import Iii.Configuration.Slot

/-! Overrides are only in memory, and give way.

What the store writes, caches and does next never depends on its overrides. An override stays
until the store itself replaces or removes it, or a delivery changes the value it lies over. And
on its own each id goes through the steps of a `Slot`. -/
namespace Iii.Configuration
open Lib

variable {V : Type} [DecidableEq V] {J : Values V} {s s' : State V} {r : Option (Report V)} {id : String}

/-! ### Two runs -/

def Act.isSetMemory : Act V → Bool
  | .request (.setMemory _ _) => true
  | _ => false

/-- Without the overrides and the history. -/
def State.bare (s : State V) : State V :=
  { s with runtimeValues := fun _ => none, recent := fun _ => [], origin := fun _ => none, fanned := fun _ => false }

theorem finish_bare (point : Point V) :
    (s.finish point).map (·.1.bare) = (s.bare.finish point).map (·.1.bare) := by
  cases point with
  | migrated source target action entry =>
    simp only [State.finish, Option.map_some, State.migrated]
    split
    · rfl
    · split <;> rfl
  | delivered change current =>
    simp only [State.finish, Option.map_some, applied_fst]
    split <;> split <;> rfl
  | deleted i removed => cases removed <;> rfl
  | _ => rfl

omit [DecidableEq V] in
theorem call_bare (point : Point V) (o : Outcome V) :
    (s.call point o).map (·.1.bare) = (s.bare.call point o).map (·.1.bare) := by
  have hadapter : s.bare.adapter = s.adapter := rfl
  cases point with
  | setting i value =>
    cases o <;> first | rfl | (simp only [State.call, hadapter]; split <;> rfl)
  | deleting i =>
    cases o <;> first | rfl | (simp only [State.call, hadapter]; split <;> rfl)
  | migrating source target =>
    cases o with
    | broken first second =>
      simp only [State.call]
      split
      · cases first <;> cases second <;> rfl
      · rfl
    | _ => first | rfl | (simp only [State.call, hadapter]; split <;> rfl)
  | reconciling ids =>
    cases ids with
    | nil => cases o <;> rfl
    | cons i ids => cases o <;> first | rfl | (simp only [State.call]; split <;> rfl)
  | _ => cases o <;> rfl

theorem request_bare (q : Request V) :
    (s.request J q).map (·.1.bare) = (s.bare.request J q).map (·.1.bare) := by
  have hentries : s.bare.entries = s.entries := rfl
  cases q with
  | register q =>
    simp only [State.request, State.register, hentries, Option.map_some]
    split
    · rfl
    · split
      · split <;> rfl
      · rfl
  | ensure q =>
    simp only [State.request, State.ensure, hentries, Option.map_some]
    split
    · rfl
    · split
      · rfl
      · split <;> rfl
      · rfl
  | set i value =>
    simp only [State.request, State.set, hentries, Option.map_some]
    split
    · rfl
    · split
      · rfl
      · split
        · rfl
        · split <;> rfl
  | setMemory i value =>
    simp only [State.request, State.setMemory, hentries, Option.map_some]
    split
    · rfl
    · split <;> split <;> rfl
  | migrate source target =>
    simp only [State.request, State.migrate, Option.map_some]
    split
    · rfl
    · split <;> rfl
  | delete i => rfl
  | deliver =>
    have hqueue : s.bare.queue = s.queue := rfl
    simp only [State.request, hqueue]
    split <;> rfl

theorem step_bare (a : Act V) : (s.step J a).map (·.1.bare) = (s.bare.step J a).map (·.1.bare) := by
  have hrunning : s.bare.running = s.running := rfl
  cases a with
  | request q =>
    simp only [State.step, hrunning]
    split
    · exact request_bare q
    · rfl
  | call o =>
    simp only [State.step, hrunning]
    cases s.running with
    | none => rfl
    | some point => exact call_bare point o
  | finish =>
    simp only [State.step, hrunning]
    cases s.running with
    | none => rfl
    | some point => exact finish_bare point
  | edit e =>
    have hadapter : s.bare.adapter = s.adapter := rfl
    cases e with
    | put fresh =>
      simp only [State.step, State.edit, hadapter]
      split
      · rfl
      · split <;> rfl
    | remove i =>
      simp only [State.step, State.edit, hadapter]
      cases s.adapter i <;> rfl

theorem setMemory_bare {i : String} {value : V} : (s.setMemory J i value).1.bare = s.bare := by
  unfold State.setMemory State.refuse
  split
  · rfl
  · dsimp only
    split <;> split <;> rfl

/-- What is left of a run when its overrides are left out, the last action first. -/
def replay (J : Values V) (s : State V) : List (Act V) → Option (State V)
  | [] => some s.bare
  | a :: as => (replay J s as).bind fun s => (s.step J a).map (·.1.bare)

variable {tr : List (Act V × Option (Report V))}

theorem replay_run (hrun : (machine J).Run s tr s') :
    replay J s ((tr.map Prod.fst).filter fun a => !a.isSetMemory) = some s'.bare := by
  induction hrun with
  | nil => rfl
  | @step tr s₁ s₂ a r hrun hstep ih =>
    change s₁.step J a = some (s₂, r) at hstep
    have hbare : (s₁.bare.step J a).map (·.1.bare) = some s₂.bare := by
      rw [← step_bare, hstep]
      rfl
    cases hmemory : a.isSetMemory with
    | false =>
      rw [List.map_cons, List.filter_cons_of_pos (by simp [hmemory]), replay, ih]
      exact hbare
    | true =>
      rw [List.map_cons, List.filter_cons_of_neg (by simp [hmemory]), ih]
      cases a with
      | request q =>
        cases q with
        | setMemory i value =>
          simp only [State.step] at hstep
          split at hstep
          · have hsame : (s₁.setMemory J i value).1 = s₂ := congrArg Prod.fst (Option.some.inj hstep)
            rw [← hsame, setMemory_bare]
          · cases hstep
        | _ => cases hmemory
      | _ => cases hmemory

/-! ### How long an override stays -/

/-- Whether a step is what an override of `id` does not outlive. -/
def State.ends (s : State V) (id : String) : Act V → Prop
  | .request (.setMemory i _) => i = id
  | .finish =>
    match s.running with
    | some (.stored entry _) => entry.id = id
    | some (.deleted i _) => i = id
    | some (.migrated source target _ _) => source = id ∨ target = id
    | some (.delivered change current) =>
      change.id = id ∧ (s.entries id).map (·.value) ≠ current.map (·.value)
    | _ => False
  | _ => False

theorem finish_override {point : Point V} (hrunning : s.running = some point) (hends : ¬s.ends id .finish)
    (hstep : s.finish point = some (s', r)) : s'.runtimeValues id = s.runtimeValues id := by
  simp only [State.ends, hrunning] at hends
  cases point with
  | registered => cases hstep; rfl
  | stored entry old =>
    cases hstep
    exact Function.update_of_ne (Ne.symm hends) _ _
  | deleted i removed =>
    cases hstep
    cases removed <;> exact Function.update_of_ne (Ne.symm hends) _ _
  | migrated source target action entry =>
    cases hstep
    rw [not_or] at hends
    simp only [State.goto, State.migrated]
    split
    · rfl
    · split
      · exact (Function.update_of_ne (Ne.symm hends.2) _ _).trans (Function.update_of_ne (Ne.symm hends.1) _ _)
      · exact Function.update_of_ne (Ne.symm hends.1) _ _
  | delivered change current =>
    simp only [State.finish, Option.some.injEq, Prod.mk.injEq] at hstep
    obtain ⟨rfl, -⟩ := hstep
    simp only [State.goto, applied_fst]
    split
    · rename_i hdropped
      refine Function.update_of_ne (fun hid => hends ⟨hid.symm, ?_⟩) _ _
      rw [hid]
      exact hdropped.2
    · rfl
  | _ => cases hstep

theorem step_override {a : Act V} (hends : ¬s.ends id a) (hstep : s.step J a = some (s', r)) :
    s'.runtimeValues id = s.runtimeValues id := by
  cases a with
  | request q =>
    simp only [State.step] at hstep
    split at hstep
    · cases requested hstep with
      | overridden i value => exact Function.update_of_ne (Ne.symm hends) _ _
      | _ => rfl
    · cases hstep
  | call o =>
    obtain ⟨point, hrunning, hcall⟩ := Option.bind_eq_some_iff.mp hstep
    cases called hcall with
    | broken source target first second => cases first <;> cases second <;> rfl
    | _ => rfl
  | finish =>
    obtain ⟨point, hrunning, hfinish⟩ := Option.bind_eq_some_iff.mp hstep
    exact finish_override hrunning hends hfinish
  | edit e =>
    obtain ⟨s'', hedit, hs⟩ := Option.map_eq_some_iff.mp hstep
    cases hs
    obtain ⟨entry, change, rfl⟩ := edit_captures hedit
    rfl

/-! ### Each id on its own -/

/-- The cached entry, or what the operation that has the lock has written for it. -/
def State.held (s : State V) (id : String) : Option (Entry V) :=
  match s.running with
  | some (.registered entry _ _) => if id = entry.id then some entry else s.entries id
  | some (.stored entry _) => if id = entry.id then some entry else s.entries id
  | some (.deleted i removed) => if id = i ∧ removed.isSome then none else s.entries id
  | some (.migrated source target _ entry) =>
    if id = target then entry else if id = source then none else s.entries id
  | _ => s.entries id

def State.stage (s : State V) (id : String) : Stage V :=
  match s.running with
  | some (.reconciling ids) => if id ∈ ids then .rereading else .idle
  | some (.delivering change) => if change.id = id then .delivering change.value else .idle
  | some (.delivered change current) =>
    if change.id = id then .delivered change.value (current.map (·.value)) else .idle
  | _ => .idle

def State.slot (s : State V) (id : String) : Slot V where
  stored := (s.adapter id).map (·.value)
  cached := (s.held id).map (·.value)
  origin := s.origin id
  override := s.runtimeValues id
  fanned := s.fanned id
  changes := (s.queue.filter (·.id = id)).map (·.value)
  stage := s.stage id

/-- The condition: an id with an override is not read from the adapter, to deliver a change of it
or after a migration has failed, while another change of it is queued. -/
def Calm (s : State V) : Act V → Prop
  | .call _ =>
    match s.running with
    | some (.delivering change) => s.runtimeValues change.id = none ∨ ¬s.queued change.id
    | some (.reconciling (id :: _)) => s.runtimeValues id = none ∨ ¬s.queued id
    | _ => True
  | _ => True

omit [DecidableEq V] in
theorem changes_eq_nil : (s.slot id).changes = [] ↔ ¬s.queued id := by
  simp [State.slot, State.queued, List.filter_eq_nil_iff]

theorem slot_captured {entry : Option (Entry V)} {change : ExternalChange V} {i : String}
    (hid : change.id = i) (hvalue : change.value = entry.map (·.value)) :
    (s.capture i entry change).slot id = s.slot id ∨
      Slot.Step (s.slot id) ((s.capture i entry change).slot id) := by
  by_cases h : id = i
  · subst h
    refine .inr ?_
    have hslot : (s.capture id entry change).slot id =
        { s.slot id with
          stored := entry.map (·.value), changes := (s.slot id).changes ++ [entry.map (·.value)] } := by
      simp only [State.slot, State.capture, Function.update_self, List.filter_append, List.map_append]
      simp [hid, hvalue, State.held, State.stage]
    rw [hslot]
    exact .edit _ _
  · refine .inl ?_
    have hne : ¬change.id = id := fun hc => h (hc.symm.trans hid)
    simp [State.slot, State.capture, Function.update_of_ne h, hne, State.held, State.stage]

/-- What no step but a delivery and an override touches. -/
def SameRest (s s' : State V) : Prop :=
  s'.runtimeValues = s.runtimeValues ∧ s'.fanned = s.fanned ∧ s'.queue = s.queue

omit [DecidableEq V] in
theorem slot_same (hrest : SameRest s s') (hadapter : s'.adapter id = s.adapter id)
    (hheld : s'.held id = s.held id) (horigin : s'.origin id = s.origin id) (hstage : s'.stage id = s.stage id) :
    s'.slot id = s.slot id := by
  obtain ⟨hruntime, hfanned, hqueue⟩ := hrest
  simp only [State.slot, hruntime, hfanned, hqueue, hadapter, hheld, horigin, hstage]

theorem slot_commit (entry : Option (Entry V)) (hrest : SameRest s s') (hadapter : s'.adapter id = entry)
    (hheld : s'.held id = entry) (horigin : s'.origin id = entry.map (·.value)) (hstage : s.stage id = .idle)
    (hstage' : s'.stage id = .idle) : Slot.Step (s.slot id) (s'.slot id) := by
  obtain ⟨hruntime, hfanned, hqueue⟩ := hrest
  have hslot : s'.slot id =
      { s.slot id with
        stored := entry.map (·.value), cached := entry.map (·.value), origin := entry.map (·.value) } := by
    simp only [State.slot, hruntime, hfanned, hqueue, hadapter, hheld, horigin, hstage, hstage']
  rw [hslot]
  exact .commit _ _ hstage

theorem slot_requested {q : Request V} (hagrees : Agrees s) (hfree : s.running = none)
    (hstep : Requested J s q s' r) : s'.slot id = s.slot id ∨ Slot.Step (s.slot id) (s'.slot id) := by
  have hheld : s.held id = s.entries id := by simp [State.held, hfree]
  have hstage : s.stage id = .idle := by simp [State.stage, hfree]
  cases hstep with
  | refused => exact .inl rfl
  | opened q point hopens =>
    refine .inl (slot_same ⟨rfl, rfl, rfl⟩ rfl ?_ rfl ?_)
    · rw [hheld]
      cases hopens <;> rfl
    · rw [hstage]
      cases hopens <;> rfl
  | overridden i value entry old =>
    by_cases h : id = i
    · subst h
      have hcached : (s.slot id).cached = (s.slot id).stored ∨ (s.slot id).changes ≠ [] := by
        have hcurrent := hagrees.current id
        simp only [State.view, hfree] at hcurrent
        refine hcurrent.imp (fun heq => ?_) fun hqueued hnil => changes_eq_nil.mp hnil hqueued
        simp only [State.slot, hheld, heq]
      refine .inr ?_
      have hover := Slot.Step.override (s.slot id) value hstage hcached
      have hslot : State.slot { s.override id (some value) with
          origin := Function.update s.origin id ((s.adapter id).map (·.value)) } id =
          { s.slot id with override := some value, origin := (s.slot id).stored } := by
        simp only [State.slot, State.override, Function.update_self]
        rfl
      rw [hslot]
      exact hover
    · refine .inl ?_
      simp only [State.slot, State.override, Function.update_of_ne h]
      rfl
  | delivers change queue hqueue =>
    by_cases h : change.id = id
    · refine .inr ?_
      have hchanges : (s.slot id).changes = change.value :: (queue.filter (·.id = id)).map (·.value) := by
        simp [State.slot, hqueue, h]
      have hslot : State.slot ({ s with queue := queue }.goto (some (.delivering change))) id =
          { s.slot id with
            stage := .delivering change.value, changes := (queue.filter (·.id = id)).map (·.value) } := by
        simp [State.slot, State.goto, State.stage, State.held, h, hfree]
      rw [hslot]
      exact .deliver _ _ _ hstage hchanges
    · refine .inl ?_
      simp [State.slot, State.goto, State.stage, State.held, h, hfree, hqueue]

/-- A migration has failed: the key is to be read again, written or not. -/
theorem slot_fail (hrest : SameRest s s') (hheld : s'.held id = s.held id) (hstage : s.stage id = .idle)
    (hstage' : s'.stage id = .rereading)
    (hwritten : s'.adapter id = s.adapter id ∧ s'.origin id = s.origin id ∨
      s'.origin id = (s'.adapter id).map (·.value)) : Slot.Step (s.slot id) (s'.slot id) := by
  obtain ⟨hruntime, hfanned, hqueue⟩ := hrest
  rcases hwritten with ⟨hadapter, horigin⟩ | horigin
  · have hslot : s'.slot id = { s.slot id with stage := .rereading } := by
      simp only [State.slot, hruntime, hfanned, hqueue, hheld, hstage', hadapter, horigin]
    rw [hslot]
    exact .fail _ hstage
  · have hslot : s'.slot id =
        { s.slot id with
          stored := (s'.adapter id).map (·.value), origin := (s'.adapter id).map (·.value), stage := .rereading } := by
      simp only [State.slot, hruntime, hfanned, hqueue, hheld, hstage', horigin]
    rw [hslot]
    exact .failHalfway _ _ hstage

theorem slot_broken {source target : String} (first second : Option (Entry V))
    (hrunning : s.running = some (.migrating source target)) :
    (((s.commitSome source first).commitSome target second).goto
        (some (.reconciling [source, target]))).slot id = s.slot id ∨
      Slot.Step (s.slot id) ((((s.commitSome source first).commitSome target second).goto
        (some (.reconciling [source, target]))).slot id) := by
  have hrest : SameRest s (((s.commitSome source first).commitSome target second).goto
      (some (.reconciling [source, target]))) := by
    cases first <;> cases second <;> exact ⟨rfl, rfl, rfl⟩
  have hheld : (((s.commitSome source first).commitSome target second).goto
      (some (.reconciling [source, target]))).held id = s.held id := by
    cases first <;> cases second <;> simp [State.held, State.goto, State.commitSome, State.commit, hrunning]
  by_cases h : id ∈ [source, target]
  · refine .inr (slot_fail hrest hheld (by simp [State.stage, hrunning]) (by simp [State.stage, State.goto, h]) ?_)
    cases first <;> cases second <;>
      simp only [State.goto, State.commitSome, State.commit, Function.update_apply] <;> grind -ring -linarith
  · refine .inl (slot_same hrest ?_ hheld ?_ (by simp [State.stage, State.goto, h, hrunning]))
    · cases first <;> cases second <;>
        simp only [State.goto, State.commitSome, State.commit, Function.update_apply] <;> grind -ring -linarith
    · cases first <;> cases second <;>
        simp only [State.goto, State.commitSome, State.commit, Function.update_apply] <;> grind -ring -linarith

theorem slot_called {point : Point V} (hagrees : Agrees s) (hrunning : s.running = some point) {o : Outcome V}
    (hcalm : Calm s (.call o)) (hstep : Called s point s' r) :
    s'.slot id = s.slot id ∨ Slot.Step (s.slot id) (s'.slot id) := by
  cases hstep with
  | failed point hpoint =>
    refine .inl (slot_same ⟨rfl, rfl, rfl⟩ rfl ?_ rfl ?_)
    · cases point <;> first | exact hpoint.elim | simp [State.held, hrunning, State.goto]
    · cases point <;> first | exact hpoint.elim | simp [State.stage, hrunning, State.goto]
  | register entry purpose =>
    by_cases h : id = entry.id
    · subst h
      refine .inr (slot_commit (some entry) ⟨rfl, rfl, rfl⟩ ?_ ?_ ?_ ?_ ?_) <;>
        simp [State.goto, State.commit, State.held, State.stage, hrunning]
    · refine .inl (slot_same ⟨rfl, rfl, rfl⟩ ?_ ?_ ?_ ?_) <;>
        simp [State.goto, State.commit, State.held, State.stage, hrunning, h]
  | set i value entry hentry =>
    obtain rfl := hagrees.keyed i entry hentry
    by_cases h : id = entry.id
    · subst h
      refine .inr (slot_commit (some { entry with value := value }) ⟨rfl, rfl, rfl⟩ ?_ ?_ ?_ ?_ ?_) <;>
        simp [State.goto, State.commit, State.held, State.stage, hrunning]
    · refine .inl (slot_same ⟨rfl, rfl, rfl⟩ ?_ ?_ ?_ ?_) <;>
        simp [State.goto, State.commit, State.held, State.stage, hrunning, h]
  | deleteNone i hnone =>
    refine .inl (slot_same ⟨rfl, rfl, rfl⟩ rfl ?_ rfl ?_) <;>
      simp [State.goto, State.held, State.stage, hrunning]
  | delete i entry hentry =>
    by_cases h : id = i
    · subst h
      refine .inr (slot_commit none ⟨rfl, rfl, rfl⟩ ?_ ?_ ?_ ?_ ?_) <;>
        simp [State.goto, State.commit, State.held, State.stage, hrunning]
    · refine .inl (slot_same ⟨rfl, rfl, rfl⟩ ?_ ?_ ?_ ?_) <;>
        simp [State.goto, State.commit, State.held, State.stage, hrunning, h]
  | migrated source entry hne =>
    by_cases htarget : id = entry.id
    · subst htarget
      refine .inr (slot_commit (some entry) ⟨rfl, rfl, rfl⟩ ?_ ?_ ?_ ?_ ?_) <;>
        simp [State.goto, State.commit, State.held, State.stage, hrunning, Ne.symm hne]
    · by_cases hsource : id = source
      · subst hsource
        refine .inr (slot_commit none ⟨rfl, rfl, rfl⟩ ?_ ?_ ?_ ?_ ?_) <;>
          simp [State.goto, State.commit, State.held, State.stage, hrunning, htarget]
      · refine .inl (slot_same ⟨rfl, rfl, rfl⟩ ?_ ?_ ?_ ?_) <;>
          simp [State.goto, State.commit, State.held, State.stage, hrunning, htarget, hsource]
  | preserved source entry hor =>
    by_cases htarget : id = entry.id
    · subst htarget
      refine .inr (slot_commit (some entry) ⟨rfl, rfl, rfl⟩ ?_ ?_ ?_ ?_ ?_) <;>
        simp [State.goto, State.commit, State.settle, State.held, State.stage, hrunning]
    · by_cases hsource : id = source
      · subst hsource
        have hnone := hor.resolve_left htarget
        refine .inr (slot_commit none ⟨rfl, rfl, rfl⟩ ?_ ?_ ?_ ?_ ?_) <;>
          simp [State.goto, State.commit, State.settle, State.held, State.stage, hrunning, htarget, hnone]
      · refine .inl (slot_same ⟨rfl, rfl, rfl⟩ ?_ ?_ ?_ ?_) <;>
          simp [State.goto, State.commit, State.settle, State.held, State.stage, hrunning, htarget, hsource]
  | missing source target hsource htarget =>
    by_cases h : id = target ∨ id = source
    · have hnone : s.adapter id = none := by rcases h with rfl | rfl <;> assumption
      refine .inr (slot_commit none ⟨rfl, rfl, rfl⟩ hnone ?_ ?_ ?_ ?_)
      · rcases h with rfl | rfl <;> simp [State.goto, State.held]
      · rcases h with rfl | rfl <;> simp [State.goto, State.settle, Function.update_apply]
      · simp [State.stage, hrunning]
      · simp [State.goto, State.stage]
    · rw [not_or] at h
      refine .inl (slot_same ⟨rfl, rfl, rfl⟩ rfl ?_ ?_ ?_) <;>
        simp [State.goto, State.settle, State.held, State.stage, hrunning, h.1, h.2]
  | broken source target first second hfirst hsecond => exact slot_broken first second hrunning
  | reconcile i ids hne =>
    have hcalm : s.runtimeValues i = none ∨ ¬s.queued i := by simpa [Calm, hrunning] using hcalm
    by_cases h : id = i
    · subst h
      refine .inr ?_
      have hslot : State.slot ((s.cache id (s.adapter id)).goto (some (.reconciling ids))) id =
          { s.slot id with
            stage := if id ∈ ids then .rereading else .idle, cached := (s.slot id).stored } := by
        simp [State.slot, State.goto, State.cache, State.held, State.stage]
      rw [hslot]
      refine .reread _ _ ?_ ?_ (hcalm.imp_right changes_eq_nil.mpr)
      · simp [State.slot, State.stage, hrunning]
      · split
        · exact .inr rfl
        · exact .inl rfl
    · refine .inl (slot_same ⟨rfl, rfl, rfl⟩ rfl ?_ rfl ?_) <;>
        simp [State.goto, State.cache, State.held, State.stage, hrunning, h]
  | reconcileLast i =>
    have hcalm : s.runtimeValues i = none ∨ ¬s.queued i := by simpa [Calm, hrunning] using hcalm
    by_cases h : id = i
    · subst h
      refine .inr ?_
      have hslot : State.slot ((s.cache id (s.adapter id)).goto none) id =
          { s.slot id with stage := .idle, cached := (s.slot id).stored } := by
        simp [State.slot, State.goto, State.cache, State.held, State.stage]
      rw [hslot]
      refine .reread _ _ ?_ (.inl rfl) (hcalm.imp_right changes_eq_nil.mpr)
      simp [State.slot, State.stage, hrunning]
    · refine .inl (slot_same ⟨rfl, rfl, rfl⟩ rfl ?_ rfl ?_) <;>
        simp [State.goto, State.cache, State.held, State.stage, hrunning, h]
  | deliver change =>
    have hcalm : s.runtimeValues change.id = none ∨ ¬s.queued change.id := by simpa [Calm, hrunning] using hcalm
    by_cases h : change.id = id
    · subst h
      refine .inr ?_
      have hslot : State.slot (s.goto (some (.delivered change (s.adapter change.id)))) change.id =
          { s.slot change.id with stage := .delivered change.value (s.slot change.id).stored } := by
        simp [State.slot, State.goto, State.held, State.stage, hrunning]
      rw [hslot]
      refine .read _ _ ?_ (hcalm.imp_right changes_eq_nil.mpr)
      simp [State.slot, State.stage, hrunning]
    · refine .inl (slot_same ⟨rfl, rfl, rfl⟩ rfl ?_ rfl ?_) <;>
        simp [State.goto, State.held, State.stage, hrunning, h]

/-- A migration that is past the adapter was the last to write its target. -/
def Moved (s : State V) : Prop :=
  ∀ source target action entry, s.running = some (.migrated source target action entry) →
    s.origin target = entry.map (·.value)

theorem Moved.step {a : Act V} (h : Moved s) (hstep : s.step J a = some (s', r)) : Moved s' := by
  intro source target action entry hrunning
  cases a with
  | request q =>
    simp only [State.step] at hstep
    split at hstep
    · rename_i hfree
      have hnone := Option.isNone_iff_eq_none.mp hfree
      cases requested hstep with
      | opened q point hopens =>
        obtain rfl := Option.some.inj hrunning
        cases hopens
      | refused => rw [hnone] at hrunning; cases hrunning
      | overridden => exact absurd (hnone.symm.trans hrunning) (by simp)
      | delivers => cases hrunning
    · cases hstep
  | call o =>
    obtain ⟨point, hpoint, hcall⟩ := Option.bind_eq_some_iff.mp hstep
    cases called hcall with
    | migrated source entry hne =>
      cases hrunning
      simp [State.goto, State.commit, Ne.symm hne]
    | preserved source entry hor =>
      cases hrunning
      simp [State.goto, State.commit]
    | missing source target hsource htarget =>
      cases hrunning
      simp [State.goto, State.settle]
    | _ => cases hrunning
  | finish =>
    obtain ⟨point, hpoint, hfinish⟩ := Option.bind_eq_some_iff.mp hstep
    rw [(Agrees.finish_rest hfinish).1] at hrunning
    cases hrunning
  | edit e =>
    obtain ⟨s'', hedit, hs⟩ := Option.map_eq_some_iff.mp hstep
    cases hs
    obtain ⟨entry', change, rfl⟩ := edit_captures hedit
    exact h source target action entry hrunning

theorem stillCurrent_iff {change : ExternalChange V} {current : Option (Entry V)} :
    State.stillCurrent change current = true ↔ change.value = current.map (·.value) := by
  cases change <;> cases current <;> simp [State.stillCurrent, ExternalChange.value]

theorem slot_finished {point : Point V} (hagrees : Agrees s) (hmoved : Moved s) (hrunning : s.running = some point)
    (hstep : s.finish point = some (s', r)) : s'.slot id = s.slot id ∨ Slot.Step (s.slot id) (s'.slot id) := by
  obtain ⟨hfree, hadapter, -, hqueue, horigin⟩ := Agrees.finish_rest hstep
  have hview := Agrees.view_finished hrunning hstep id
  have hheld' : s'.held id = s.view id := by simp [State.held, hfree, hview]
  have hstage' : s'.stage id = .idle := by simp [State.stage, hfree]
  have hcurrent := hagrees.current id
  -- an override that goes leaves everything else as it is
  have hdrop (hheld : s.view id = s.held id) (hstage : s.stage id = .idle) (hfanned : s'.fanned id = s.fanned id)
      (hruntime : s'.runtimeValues id = none) : Slot.Step (s.slot id) (s'.slot id) := by
    have hslot : s'.slot id = { s.slot id with override := none } := by
      simp only [State.slot, hadapter, hqueue, horigin, hheld', hheld, hstage', hstage, hfanned, hruntime]
    rw [hslot]
    exact .drop _ hstage
  have hsame (hheld : s.view id = s.held id) (hstage : s.stage id = .idle) (hfanned : s'.fanned id = s.fanned id)
      (hruntime : s'.runtimeValues id = s.runtimeValues id) : s'.slot id = s.slot id := by
    simp only [State.slot, hadapter, hqueue, horigin, hheld', hheld, hstage', hstage, hfanned, hruntime]
  cases point with
  | registered entry purpose created =>
    cases hstep
    exact .inl (hsame (by simp [State.view, State.held, hrunning]) (by simp [State.stage, hrunning]) rfl rfl)
  | stored entry old =>
    have hheld : s.view id = s.held id := by simp [State.view, State.held, hrunning]
    have hstage : s.stage id = .idle := by simp [State.stage, hrunning]
    cases hstep
    by_cases h : id = entry.id
    · subst h
      exact .inr (hdrop hheld hstage rfl (Function.update_self ..))
    · exact .inl (hsame hheld hstage rfl (Function.update_of_ne h _ _))
  | deleted i removed =>
    have hheld : s.view id = s.held id := by simp [State.view, State.held, hrunning]
    have hstage : s.stage id = .idle := by simp [State.stage, hrunning]
    cases hstep
    by_cases h : id = i
    · subst h
      refine .inr (hdrop hheld hstage ?_ ?_) <;> cases removed <;>
        simp [State.goto, State.cache, State.override]
    · refine .inl (hsame hheld hstage ?_ ?_) <;> cases removed <;>
        simp [State.goto, State.cache, State.override, h]
  | migrated source target action entry =>
    have hheld : s.view id = s.held id := by simp [State.view, State.held, hrunning]
    have hstage : s.stage id = .idle := by simp [State.stage, hrunning]
    simp only [State.finish, Option.some.injEq, Prod.mk.injEq] at hstep
    obtain ⟨hs', -⟩ := hstep
    have hfanned : s'.fanned id = s.fanned id := by
      rw [← hs']
      simp only [State.migrated, State.goto]
      split
      · rfl
      · split <;> rfl
    have hruntime : s'.runtimeValues id =
        if source = target then s.runtimeValues id
        else if id = target ∧ action = .migrated then s.runtimeValues source
        else if id = source then none else s.runtimeValues id := by
      rw [← hs']
      simp only [State.migrated, State.goto]
      split
      · rfl
      · split <;> simp only [State.cache, State.override, Function.update_apply] <;> grind -ring -linarith
    by_cases heq : source = target
    · exact .inl (hsame hheld hstage hfanned (by rw [hruntime, if_pos heq]))
    rw [if_neg heq] at hruntime
    by_cases hmigrated : id = target ∧ action = .migrated
    · rw [if_pos hmigrated] at hruntime
      obtain ⟨rfl, -⟩ := hmigrated
      have hentry : s.held id = entry := by simp [State.held, hrunning]
      have hslot : s'.slot id = { s.slot id with override := s.runtimeValues source } := by
        simp only [State.slot, hadapter, hqueue, horigin, hheld', hheld, hstage', hstage, hfanned, hruntime]
      refine .inr ?_
      rw [hslot]
      refine .inherit _ _ hstage ?_ (hcurrent.imp (fun hc => ?_) fun hq hnil => changes_eq_nil.mp hnil hq)
      · simp only [State.slot, hentry]
        exact (hmoved source id action entry hrunning).symm
      · simp only [State.slot, ← hheld, hc]
    · rw [if_neg hmigrated] at hruntime
      by_cases hsource : id = source
      · exact .inr (hdrop hheld hstage hfanned (by rw [hruntime, if_pos hsource]))
      · exact .inl (hsame hheld hstage hfanned (by rw [hruntime, if_neg hsource]))
  | delivered change current =>
    simp only [State.finish, Option.some.injEq, Prod.mk.injEq] at hstep
    obtain ⟨hs', -⟩ := hstep
    have hheld : s.held id = s.entries id := by simp [State.held, hrunning]
    have hruntime : s'.runtimeValues id =
        if id = change.id ∧ change.value = current.map (·.value) ∧
            (s.entries change.id).map (·.value) ≠ current.map (·.value) then none
        else s.runtimeValues id := by
      rw [← hs']
      simp only [State.goto, applied_fst, stillCurrent_iff]
      split <;> simp only [State.cache, State.override, Function.update_apply] <;> grind -ring -linarith
    by_cases h : id = change.id
    · subst h
      have hfanned : s'.fanned change.id = decide (change.value = current.map (·.value) ∧
          ((s.entries change.id).map (·.value) ≠ current.map (·.value) ∨ s.runtimeValues change.id = none)) := by
        rw [← hs']
        simp only [State.goto, Function.update_self, applied_snd]
        rw [Bool.eq_iff_iff]
        simp only [Bool.and_eq_true, Bool.or_eq_true, decide_eq_true_eq, stillCurrent_iff, Option.isNone_iff_eq_none]
      have hcached : s.view change.id = current := by simp [State.view, hrunning]
      have hslot : s'.slot change.id = { s.slot change.id with
          stage := .idle
          cached := current.map (·.value)
          override := if change.value = current.map (·.value) ∧ (s.slot change.id).cached ≠ current.map (·.value)
            then none else (s.slot change.id).override
          fanned := decide (change.value = current.map (·.value) ∧
            ((s.slot change.id).cached ≠ current.map (·.value) ∨ (s.slot change.id).override = none)) } := by
        simp only [State.slot, hadapter, hqueue, horigin, hheld', hcached, hstage', hfanned, hruntime, hheld,
          true_and]
      refine .inr ?_
      rw [hslot]
      refine .finish _ _ _ ?_ (hcurrent.imp (fun hc => ?_) fun hq hnil => changes_eq_nil.mp hnil hq)
      · simp [State.slot, State.stage, hrunning]
      · simp only [State.slot, ← hc, hcached]
    · have hfanned : s'.fanned id = s.fanned id := by
        rw [← hs']
        exact Function.update_of_ne h _ _
      refine .inl (hsame ?_ ?_ hfanned ?_)
      · simp [State.view, State.held, hrunning, h]
      · simp [State.stage, hrunning, Ne.symm h]
      · rw [hruntime, if_neg fun hc => h hc.1]
  | _ => cases hstep

theorem slot_step {a : Act V} (hagrees : Agrees s) (hmoved : Moved s) (hcalm : Calm s a)
    (hstep : s.step J a = some (s', r)) : s'.slot id = s.slot id ∨ Slot.Step (s.slot id) (s'.slot id) := by
  cases a with
  | request q =>
    simp only [State.step] at hstep
    split at hstep
    · rename_i hfree
      exact slot_requested hagrees (Option.isNone_iff_eq_none.mp hfree) (requested hstep)
    · cases hstep
  | call o =>
    obtain ⟨point, hrunning, hcall⟩ := Option.bind_eq_some_iff.mp hstep
    exact slot_called hagrees hrunning hcalm (called hcall)
  | finish =>
    obtain ⟨point, hrunning, hfinish⟩ := Option.bind_eq_some_iff.mp hstep
    exact slot_finished hagrees hmoved hrunning hfinish
  | edit e =>
    obtain ⟨s'', hedit, hs⟩ := Option.map_eq_some_iff.mp hstep
    cases hs
    obtain ⟨entry, change, rfl, hid, hvalue, -⟩ := edited hagrees.keyed hedit
    exact slot_captured hid hvalue

/-! ### Every run -/

/-- What every run keeps whose reads are all calm. -/
theorem slots_fair {stored : String → Option (Entry V)} (hstored : Keyed stored)
    (hrun : ((machine J).only Calm).Run (.primed stored) tr s) (id : String) :
    (s.slot id).Fair := by
  have hall : Agrees s ∧ Moved s ∧ (s.slot id).Fair := by
    refine hrun.invariant (I := fun s => Agrees s ∧ Moved s ∧ (s.slot id).Fair)
      ⟨.primed hstored, (fun _ _ _ _ h => nomatch h), ?_⟩ ?_
    · constructor <;> simp [State.primed, State.slot, State.held, State.stage, Slot.pending]
    · rintro s a r s' ⟨hagrees, hmoved, hfair⟩ ⟨hcalm, hstep⟩
      refine ⟨hagrees.step hstep, hmoved.step hstep, ?_⟩
      rcases slot_step hagrees hmoved hcalm hstep with heq | hslot
      · rw [heq]
        exact hfair
      · exact hfair.step hslot
  exact hall.2.2

/-- Two runs that differ in their overrides alone have the same adapter and the same cache; an
override is what an id's active entry has for a value until a step that ends it; and in every run
whose reads are calm, once the lock is free and nothing is queued, an id that edits have left with
another value than it had has no override, and the last change of it was fanned out. -/
theorem overrides_give_way {stored : String → Option (Entry V)} (hstored : Keyed stored) :
    (∀ tr₁ tr₂ s₁ s₂, (machine J).Run (.primed stored) tr₁ s₁ → (machine J).Run (.primed stored) tr₂ s₂ →
      (tr₁.map Prod.fst).filter (!·.isSetMemory) = (tr₂.map Prod.fst).filter (!·.isSetMemory) →
      s₁.adapter = s₂.adapter ∧ s₁.entries = s₂.entries) ∧
    (∀ mid s s' id v, s.runtimeValues id = some v →
      ((machine J).only fun s a => ¬s.ends id a).Run s mid s' →
      (s'.activeEntry J id).map (·.value) = some v) ∧
    (∀ tr s id, ((machine J).only Calm).Run (.primed stored) tr s → s.running = none → s.queue = [] →
      (s.adapter id).map (·.value) ≠ s.origin id → s.runtimeValues id = none ∧ s.fanned id = true) := by
  refine ⟨fun tr₁ tr₂ s₁ s₂ h₁ h₂ hsame => ?_, fun mid s s' id v hv hmid => ?_,
    fun tr s id hrun hfree hqueue hvalue => ?_⟩
  · have hbare : s₁.bare = s₂.bare := by
      have hreplay := (replay_run h₁).symm
      rw [hsame, replay_run h₂] at hreplay
      exact Option.some.inj hreplay
    have hadapter : s₁.bare.adapter = s₂.bare.adapter := by rw [hbare]
    have hentries : s₁.bare.entries = s₂.bare.entries := by rw [hbare]
    exact ⟨hadapter, hentries⟩
  · have hkept : s'.runtimeValues id = some v :=
      hmid.invariant hv fun h hstep => (step_override hstep.1 hstep.2).trans h
    simp [State.activeEntry, hkept]
  · refine (slots_fair hstored hrun id).gone ?_ ?_ hvalue
    · simp [State.slot, State.stage, hfree]
    · simp [State.slot, State.stage, Slot.pending, hfree, hqueue]

theorem calm_step {s₀ : State V} {a : Act V} (hrun : ((machine J).only Calm).Run s₀ tr s)
    (hstep : s.step J a = some (s', r)) (hcalm : Calm s a) :
    ((machine J).only Calm).Run s₀ ((a, r) :: tr) s' :=
  .step hrun ⟨hcalm, hstep⟩

/-- An override of a port, the port edited, and the edit delivered: the override is gone. -/
theorem overrides_give_way_port : ∃ tr s, ((machine numbers).only Calm).Run (.primed ports) tr s ∧
    s.runtimeValues "port" = none ∧ s.fanned "port" = true := by
  have hrun := calm_step (calm_step (calm_step (calm_step (calm_step (J := numbers) .nil
    (show State.step numbers (.primed ports) (.request (.setMemory "port" 9)) = some (_, some _) from rfl) trivial)
    (show State.step numbers _ (.edit (.put (port 2))) = some (_, none) from rfl) trivial)
    (show State.step numbers _ (.request .deliver) = some (_, none) from rfl) trivial)
    (show State.step numbers _ (.call .done) = some (_, none) from rfl)
    (Or.inr (by rintro ⟨change, hmem, -⟩; cases hmem)))
    (show State.step numbers _ .finish = some (_, some _) from rfl) trivial
  exact ⟨_, _, hrun, (overrides_give_way ports_keyed).2.2 _ _ "port" hrun rfl rfl (by decide)⟩

/-- Two edits of the port before the first is delivered. Neither delivery is fanned out, and the
override stays over a port that is not the one it was laid over. -/
theorem override_outlives_edits : ∃ tr s, (machine numbers).Run (.primed ports) tr s ∧ s.running = none ∧
    s.queue = [] ∧ tr.filterMap (·.2) = [.applied "port" false, .applied "port" false, .set (port 9) (some 1)] ∧
    (s.adapter "port").map (·.value) = some 3 ∧ (s.activeEntry numbers "port").map (·.value) = some 9 := by
  have hrun := Machine.Run.step (M := machine numbers) (.step (.step (.step (.step (.step (.step (.step (.step .nil
    (show State.step numbers (.primed ports) (.request (.setMemory "port" 9)) = some (_, some _) from rfl))
    (show State.step numbers _ (.edit (.put (port 2))) = some (_, none) from rfl))
    (show State.step numbers _ (.edit (.put (port 3))) = some (_, none) from rfl))
    (show State.step numbers _ (.request .deliver) = some (_, none) from rfl))
    (show State.step numbers _ (.call .done) = some (_, none) from rfl))
    (show State.step numbers _ .finish = some (_, some _) from rfl))
    (show State.step numbers _ (.request .deliver) = some (_, none) from rfl))
    (show State.step numbers _ (.call .done) = some (_, none) from rfl))
    (show State.step numbers _ .finish = some (_, some _) from rfl)
  exact ⟨_, _, hrun, rfl, rfl, rfl, rfl, rfl⟩

end Iii.Configuration
