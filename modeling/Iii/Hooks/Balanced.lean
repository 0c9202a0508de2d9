import Iii.Hooks.Task

/-! Each observer that was added is removed once.

The owner's index is kept by the two callbacks alone, so an observer is a member exactly from the
return of its `on_observer_added` to the start of its `on_observer_removed`. A `reject` made while
the first of them runs breaks this: the observer was added and is not kept, and nothing removes
it. -/
namespace Iii.Hooks
open Lib

variable {V : Type} {F : Function V} {s s' : State V}

/-- In a log of callbacks, the last first: an `on_observer_added` starts when every earlier one of
that id that returned `Ok` was followed by its `on_observer_removed`, each returns once, and an
`on_observer_removed` follows a success, once. -/
def Balanced : List (Call V) → Prop
  | [] => True
  | .adding o :: calls =>
    (∀ o', .added o' true ∈ calls → o'.view.id = o.view.id → .removed o' ∈ calls) ∧ Balanced calls
  | .added o _ :: calls => (∀ ok, .added o ok ∉ calls) ∧ Balanced calls
  | .removed o :: calls => .added o true ∈ calls ∧ .removed o ∉ calls ∧ Balanced calls

/-- `on_observer_added` returned `Ok` and `on_observer_removed` was not called. -/
def Open (s : State V) (o : Observer V) : Prop := .added o true ∈ s.calls ∧ .removed o ∉ s.calls

/-- No `on_observer_added` returns `Ok` for an observer that was rejected while it ran, unless the
function was released too; and no active observer is rejected once the client dropped the function. -/
def orderly (s : State V) : Act V → Bool
  | .finish .ok =>
    match s.running with
    | some (.adding o _ revocation) => (s.rejection o.ref).isNone || s.revocation != revocation
    | _ => true
  | .reject o _ => s.listed || !s.active o.ref
  | _ => true

def Call.observer : Call V → Observer V
  | adding o => o
  | added o _ => o
  | removed o => o

/-- What the observers are between two steps. -/
structure Fit (F : Function V) (s : State V) : Prop where
  made : ∀ o ∈ s.made, o.ref < s.made.length
  unique : ∀ o ∈ s.made, ∀ o' ∈ s.made, o.ref = o'.ref → o = o'
  member : ∀ o ∈ s.members, o ∈ s.made
  ids : ∀ o ∈ s.members, ∀ o' ∈ s.members, o.view.id = o'.view.id → o = o'
  calls : ∀ c ∈ s.calls, c.observer ∈ s.made
  adding : ∀ o revision revocation, s.running = some (.adding o revision revocation) →
    F.hooks = true ∧ o ∈ s.made ∧ (∀ ok, .added o ok ∉ s.calls) ∧ .removed o ∉ s.calls ∧
      ∀ m ∈ s.members, m.view.id ≠ o.view.id
  opened : F.hooks = true → ∀ o, Open s o ↔ o ∈ s.members
  quiet : F.hooks = false → s.calls = []
  active : ∀ r, s.active r = true → s.rejection r = none
  fresh : ∀ r, s.made.length ≤ r → s.active r = false ∧ s.rejection r = none
  compiled : ∀ o ∈ s.compiled, o ∈ s.members ∧ s.active o.ref = true
  balanced : Balanced s.calls

/-- What the operation in progress has left to do. -/
structure Course (s : State V) : Prop where
  add : ∀ view ns revision todo, s.todo = .add view ns revision :: todo → ∀ m ∈ s.members, m.view.id ≠ view.id
  once : ∀ item ∈ s.todo.tail, ∀ view ns revision, item ≠ .add view ns revision
  alone : ∀ o revision revocation, s.running = some (.adding o revision revocation) →
    ∀ view ns revision', .add view ns revision' ∉ s.todo
  registered : ∀ revocation epoch ns revision localDispatch views,
    s.doing = some (.registered revocation epoch ns revision localDispatch views) →
    (∀ m ∈ s.members, m.view.id ∈ views.map (·.id) ∨ .drop m.view.id ∈ s.todo) ∧
    (∀ view ns revision, .refresh view ns revision ∈ s.todo ∨ .add view ns revision ∈ s.todo →
      view.id ∈ views.map (·.id)) ∧
    ∀ o revision revocation, s.running = some (.adding o revision revocation) → o.view.id ∈ views.map (·.id)
  reset : ∀ last, s.doing = some (.reset last) →
    (∀ m ∈ s.members, .drop m.view.id ∈ s.todo) ∧
    (∀ view ns revision, .refresh view ns revision ∉ s.todo ∧ .add view ns revision ∉ s.todo) ∧
    ∀ o revision revocation, s.running ≠ some (.adding o revision revocation)

theorem held_eq_none {id : String} : s.held id = none ↔ ∀ m ∈ s.members, m.view.id ≠ id := by
  simp [State.held]

theorem held_eq_some {id : String} {o : Observer V} (h : s.held id = some o) : o ∈ s.members ∧ o.view.id = id :=
  ⟨List.mem_of_find?_eq_some h, by simpa using List.find?_some h⟩

/-- Acks change nothing else than the revisions. -/
theorem ackHeld_eq [DecidableEq V] (s : State V) (revision : Nat) (views : List (View V)) :
    (∃ f, (s.ackHeld revision views).1 = { s with announced := f }) ∧
      ∀ view ∈ (s.ackHeld revision views).2.2, view ∈ views := by
  induction views generalizing s with
  | nil => exact ⟨⟨s.announced, rfl⟩, by simp [State.ackHeld]⟩
  | cons view views ih =>
    unfold State.ackHeld
    split
    · split
      · obtain ⟨⟨f, hf⟩, hfresh⟩ := ih (s.ackAgain _ revision).1
        exact ⟨⟨f, hf⟩, fun v hv => List.mem_cons_of_mem _ (hfresh v hv)⟩
      · obtain ⟨⟨f, hf⟩, hfresh⟩ := ih s
        refine ⟨⟨f, hf⟩, fun v hv => ?_⟩
        rcases List.mem_cons.mp hv with rfl | hv
        · exact List.mem_cons_self ..
        · exact List.mem_cons_of_mem _ (hfresh v hv)
    · obtain ⟨⟨f, hf⟩, hfresh⟩ := ih s
      refine ⟨⟨f, hf⟩, fun v hv => ?_⟩
      rcases List.mem_cons.mp hv with rfl | hv
      · exact List.mem_cons_self ..
      · exact List.mem_cons_of_mem _ (hfresh v hv)

/-! ### The observers -/

theorem Fit.removeMember (h : Fit F s) (hidle : s.running = none) (id : String) : Fit F (s.removeMember F id) := by
  unfold State.removeMember
  split
  · exact h
  · rename_i o ho
    obtain ⟨hmem, hid⟩ := held_eq_some ho
    have hmade := h.member o hmem
    obtain ⟨hm, hu, hmb, hids, hc, -, hop, hq, ha, hf, hcomp, hbal⟩ := h
    unfold State.startRemoved
    split
    · rename_i hhooks
      have hopen := (hop hhooks o).mpr hmem
      constructor <;> simp only [State.call, State.publish, State.deactivate, Open, Balanced] at *
      all_goals grind -ring -linarith [Function.update_apply, Call.observer]
    · rename_i hhooks
      constructor <;> simp only [State.publish, State.deactivate, Open] at *
      all_goals grind -ring -linarith [Function.update_apply]

/-- `Fit` is about the observers alone. -/
theorem Fit.of_eq (h : Fit F s) (hmade : s'.made = s.made) (hmembers : s'.members = s.members)
    (hcalls : s'.calls = s.calls) (hactive : s'.active = s.active) (hrejection : s'.rejection = s.rejection)
    (hcompiled : s'.compiled = s.compiled)
    (hrunning : s'.running = s.running ∨ ∀ o revision revocation, s'.running ≠ some (.adding o revision revocation)) :
    Fit F s' := by
  obtain ⟨hm, hu, hmb, hids, hc, had, hop, hq, ha, hf, hcomp, hbal⟩ := h
  constructor <;> simp only [Open, hmade, hmembers, hcalls, hactive, hrejection, hcompiled] at *
  case adding => grind -ring -linarith
  all_goals assumption

/-- The end of `add_member` for an observer that was not rejected and whose id nobody holds. -/
theorem accept_eq (s : State V) (o : Observer V) (revision : Nat) (hnew : ∀ m ∈ s.members, m.view.id ≠ o.view.id)
    (hnone : s.rejection o.ref = none) :
    (s.accept o revision).1 = { s with active := Function.update s.active o.ref true
                                       members := s.members ++ [o] }.publish := by
  have hsame : (s.members.filter fun m => m.view.id ≠ o.view.id) = s.members := by
    rw [List.filter_eq_self]
    simpa using hnew
  simp only [State.accept, hnone, hsame]

theorem Fit.addMember (h : Fit F s) (hidle : s.running = none) {view : View V} {ns : String} {revision : Nat}
    (hnew : ∀ m ∈ s.members, m.view.id ≠ view.id) : Fit F (s.addMember F view ns revision).1 := by
  have hfresh := h.fresh s.made.length (Nat.le_refl _)
  unfold State.addMember
  split
  · exact h
  · split
    · obtain ⟨hm, hu, hmb, hids, hc, -, hop, hq, ha, hf, hcomp, hbal⟩ := h
      constructor <;> simp only [State.call, Open, Balanced] at *
      all_goals grind -ring -linarith [Call.observer]
    · rw [accept_eq _ _ _ hnew hfresh.2]
      obtain ⟨hm, hu, hmb, hids, hc, -, hop, hq, ha, hf, hcomp, hbal⟩ := h
      constructor <;> simp only [State.publish, Open] at *
      all_goals grind -ring -linarith [Function.update_apply]

theorem Fit.finish (h : Fit F s) {outcome : Outcome} {r : Sent V} (horderly : orderly s (.finish outcome) = true)
    (hstep : s.finish F outcome = some (s', r)) : Fit F s' := by
  unfold State.finish at hstep
  split at hstep
  · cases hstep
  · simp only [Option.some.injEq, Prod.mk.injEq] at hstep
    obtain ⟨rfl, -⟩ := hstep
    exact h.of_eq rfl rfl rfl rfl rfl rfl (.inr (by simp))
  · rename_i o revision revocation hrunning
    obtain ⟨hhooks, hmade, hadded, hremoved, hnew⟩ := h.adding o revision revocation hrunning
    split at hstep
    · simp only [Option.some.injEq, Prod.mk.injEq] at hstep
      obtain ⟨rfl, -⟩ := hstep
      obtain ⟨hm, hu, hmb, hids, hc, -, hop, hq, ha, hf, hcomp, hbal⟩ := h
      constructor <;> simp only [State.call, Open, Balanced] at *
      all_goals grind -ring -linarith [Call.observer]
    · rename_i hok
      simp only at hstep
      split at hstep
      · simp only [Option.some.injEq, Prod.mk.injEq] at hstep
        obtain ⟨rfl, -⟩ := hstep
        obtain ⟨hm, hu, hmb, hids, hc, -, hop, hq, ha, hf, hcomp, hbal⟩ := h
        unfold State.startRemoved
        constructor <;> simp only [State.call, Open, Balanced, hhooks, if_true] at *
        all_goals grind -ring -linarith [Call.observer]
      · rename_i hseen
        simp only [Option.some.injEq, Prod.mk.injEq] at hstep
        obtain ⟨rfl, -⟩ := hstep
        have hnone : s.rejection o.ref = none := by
          cases outcome <;> simp only [Outcome.rejection, reduceCtorEq] at hok
          simp only [orderly, hrunning, Bool.or_eq_true, Option.isNone_iff_eq_none, bne_iff_ne] at horderly
          exact horderly.resolve_right hseen
        rw [accept_eq (State.call { s with running := none } (.added o true)) o revision hnew hnone]
        obtain ⟨hm, hu, hmb, hids, hc, -, hop, hq, ha, hf, hcomp, hbal⟩ := h
        constructor <;> simp only [State.call, State.publish, Open, Balanced] at *
        all_goals grind -ring -linarith [Function.update_apply, Call.observer]

theorem Fit.reject (h : Fit F s) {o : Observer V} {error : ErrorBody} (hmade : o ∈ s.made)
    (horderly : s.listed = true ∨ s.active o.ref = false) : Fit F (s.reject o error).1 := by
  obtain ⟨hm, hu, hmb, hids, hc, had, hop, hq, ha, hf, hcomp, hbal⟩ := h
  unfold State.reject
  simp only
  split
  · rename_i hactive
    have hlisted := horderly.resolve_right (by simp [hactive])
    constructor <;> simp only [hlisted, if_true, State.enqueue, State.dropInactive, State.deactivate, Open] at *
    all_goals grind -ring -linarith [Function.update_apply]
  · constructor <;> simp only [Open] at *
    all_goals grind -ring -linarith [Function.update_apply]

section
variable [DecidableEq V]

theorem Fit.take (h : Fit F s) (hidle : s.running = none) (op : HookOp V) : Fit F (s.take F op).1 := by
  unfold State.take
  split
  · split
    · exact h.of_eq rfl rfl rfl rfl rfl rfl (.inl rfl)
    · rename_i revocation epoch ns revision localDispatch observers hseen
      obtain ⟨⟨f, hf⟩, -⟩ := ackHeld_eq { s with revoked := false, ns := some ns, localDispatch := localDispatch && F.wantsLocal, doing := some (.registered revocation epoch ns revision localDispatch observers) } revision observers
      simp only [hf]
      exact h.of_eq rfl rfl rfl rfl rfl rfl (.inl rfl)
  · split
    · exact h.of_eq rfl rfl rfl rfl rfl rfl (.inl rfl)
    · simp only
      split
      · split
        · exact h.of_eq rfl rfl rfl rfl rfl rfl (.inl rfl)
        · exact h.of_eq rfl rfl rfl rfl rfl rfl (.inl rfl)
      · exact h.of_eq rfl rfl rfl rfl rfl rfl (.inl rfl)
  · split <;> exact h.of_eq rfl rfl rfl rfl rfl rfl (.inl rfl)
  · obtain ⟨hm, hu, hmb, hids, hc, had, hop, hq, ha, hf, hcomp, hbal⟩ := h
    constructor <;> simp only [State.publish, Open] at *
    all_goals grind -ring -linarith
  · exact h.of_eq rfl rfl rfl rfl rfl rfl (.inl rfl)

end

/-! ### The operation in progress -/

theorem removeMember_members (F : Function V) (s : State V) (id : String) :
    (s.removeMember F id).members = s.members.filter fun m => m.view.id ≠ id := by
  unfold State.removeMember
  split
  · rename_i hnone
    rw [eq_comm, List.filter_eq_self]
    simpa using held_eq_none.mp hnone
  · unfold State.startRemoved
    split <;> rfl

theorem removeMember_course (F : Function V) (s : State V) (id : String) :
    (s.removeMember F id).todo = s.todo ∧ (s.removeMember F id).doing = s.doing ∧
      ((s.removeMember F id).running = s.running ∨ ∃ o, (s.removeMember F id).running = some (.removing o)) := by
  unfold State.removeMember
  split
  · exact ⟨rfl, rfl, .inl rfl⟩
  · unfold State.startRemoved
    split
    · exact ⟨rfl, rfl, .inr ⟨_, rfl⟩⟩
    · exact ⟨rfl, rfl, .inl rfl⟩

theorem accept_course (s : State V) (o : Observer V) (revision : Nat) :
    (s.accept o revision).1.todo = s.todo ∧ (s.accept o revision).1.doing = s.doing ∧
      (s.accept o revision).1.running = s.running ∧
      ∀ m ∈ (s.accept o revision).1.members, m ∈ s.members ∨ m = o := by
  unfold State.accept
  split
  · exact ⟨rfl, rfl, rfl, fun m hm => .inl hm⟩
  · refine ⟨rfl, rfl, rfl, fun m hm => ?_⟩
    rcases List.mem_append.mp hm with hm | hm
    · exact .inl (List.mem_filter.mp hm).1
    · exact .inr (List.mem_singleton.mp hm)

theorem addMember_course (F : Function V) (s : State V) (view : View V) (ns : String) (revision : Nat) :
    (s.addMember F view ns revision).1.todo = s.todo ∧ (s.addMember F view ns revision).1.doing = s.doing ∧
      (∀ m ∈ (s.addMember F view ns revision).1.members, m ∈ s.members ∨ m.view = view) ∧
      ((s.addMember F view ns revision).1.running = s.running ∨
        ∃ o seen, (s.addMember F view ns revision).1.running = some (.adding o revision seen) ∧ o.view = view) := by
  unfold State.addMember
  split
  · exact ⟨rfl, rfl, fun m hm => .inl hm, .inl rfl⟩
  · split
    · exact ⟨rfl, rfl, fun m hm => .inl hm, .inr ⟨_, _, rfl, rfl⟩⟩
    · simp only
      obtain ⟨htodo, hdoing, hrunning, hmembers⟩ := accept_course
        { s with made := { ref := s.made.length, view, ns } :: s.made
                 announced := Function.update s.announced s.made.length revision }
        { ref := s.made.length, view, ns } revision
      refine ⟨htodo, hdoing, fun m hm => ?_, .inl hrunning⟩
      rcases hmembers m hm with hm | rfl
      · exact .inl hm
      · exact .inr rfl

theorem Course.work (h : Course s) (hidle : s.running = none) {item : Item V} {todo : List (Item V)}
    (htodo : s.todo = item :: todo) : Course (State.work F { s with todo := todo } item).1 := by
  obtain ⟨hadd, honce, halone, hreg, hreset⟩ := h
  simp only [htodo, List.tail_cons] at hadd honce halone hreg hreset
  cases item with
  | drop id =>
    have hmembers := removeMember_members F { s with todo := todo } id
    obtain ⟨htodo', hdoing, hrunning⟩ := removeMember_course F { s with todo := todo } id
    simp only [State.work]
    constructor <;> simp only [hmembers, htodo', hdoing] at *
    all_goals grind -ring -linarith [List.mem_of_mem_tail]
  | refresh view ns revision =>
    have hmembers := removeMember_members F { s with todo := .add view ns revision :: todo } view.id
    obtain ⟨htodo', hdoing, hrunning⟩ := removeMember_course F { s with todo := .add view ns revision :: todo } view.id
    simp only [State.work]
    constructor <;> simp only [hmembers, htodo', hdoing] at *
    all_goals grind -ring -linarith [List.mem_of_mem_tail]
  | add view ns revision =>
    obtain ⟨htodo', hdoing, hmembers, hrunning⟩ := addMember_course F { s with todo := todo } view ns revision
    have hlisted : ∀ revocation epoch ns' revision' localDispatch views,
        s.doing = some (.registered revocation epoch ns' revision' localDispatch views) →
        view.id ∈ views.map (·.id) := by
      intro revocation epoch ns' revision' localDispatch views hdo
      exact (hreg _ _ _ _ _ _ hdo).2.1 view ns revision (.inr (List.mem_cons_self ..))
    have hnever : ∀ last, s.doing ≠ some (.reset last) := by
      intro last hdo
      exact ((hreset last hdo).2.1 view ns revision).2 (List.mem_cons_self ..)
    simp only [State.work]
    constructor <;> simp only [htodo', hdoing] at *
    all_goals grind -ring -linarith [List.mem_of_mem_tail]
  | settle revision =>
    constructor <;> simp only [State.work] at *
    all_goals grind -ring -linarith [List.mem_of_mem_tail]
  | rewind last =>
    constructor <;> simp only [State.work] at *
    all_goals grind -ring -linarith [List.mem_of_mem_tail]

theorem Course.of_eq (h : Course s) (hmembers : s'.members = s.members) (htodo : s'.todo = s.todo)
    (hdoing : s'.doing = s.doing) (hrunning : s'.running = s.running) : Course s' := by
  obtain ⟨hadd, honce, halone, hreg, hreset⟩ := h
  constructor <;> simp only [hmembers, htodo, hdoing, hrunning] <;> assumption

/-- A `refresh` comes first. -/
theorem Course.of_taken (hidle : s.running = none) (hnew : ∀ view ns revision, .add view ns revision ∉ s.todo)
    (hreg : ∀ revocation epoch ns revision localDispatch views,
      s.doing = some (.registered revocation epoch ns revision localDispatch views) →
      (∀ m ∈ s.members, m.view.id ∈ views.map (·.id) ∨ .drop m.view.id ∈ s.todo) ∧
      ∀ view ns revision, .refresh view ns revision ∈ s.todo → view.id ∈ views.map (·.id))
    (hreset : ∀ last, s.doing = some (.reset last) →
      (∀ m ∈ s.members, .drop m.view.id ∈ s.todo) ∧ ∀ view ns revision, .refresh view ns revision ∉ s.todo) :
    Course s := by
  constructor
  case add =>
    intro view ns revision todo heq
    exact absurd (heq ▸ List.mem_cons_self ..) (hnew view ns revision)
  case once =>
    rintro item hitem view ns revision rfl
    exact hnew view ns revision (List.mem_of_mem_tail hitem)
  case alone => exact fun _ _ _ _ => hnew
  case registered => grind -ring -linarith
  case reset => grind -ring -linarith

/-- An operation that is passed over leaves nothing to do. -/
theorem Course.idle (htodo : s.todo = []) (hdoing : s.doing = none) : Course s := by
  constructor <;> simp [htodo, hdoing]

theorem Course.finish (h : Course s) {outcome : Outcome} {r : Sent V} (hstep : s.finish F outcome = some (s', r)) : Course s' := by
  obtain ⟨hadd, honce, halone, hreg, hreset⟩ := h
  unfold State.finish at hstep
  split at hstep
  · cases hstep
  · rename_i hrunning
    simp only [Option.some.injEq, Prod.mk.injEq] at hstep
    obtain ⟨rfl, -⟩ := hstep
    constructor <;> simp only at * <;> grind -ring -linarith
  · rename_i o revision revocation hrunning
    simp only at hstep
    split at hstep
    · simp only [Option.some.injEq, Prod.mk.injEq] at hstep
      obtain ⟨rfl, -⟩ := hstep
      constructor <;> simp only [State.call] at * <;> grind -ring -linarith
    · split at hstep
      · simp only [Option.some.injEq, Prod.mk.injEq] at hstep
        obtain ⟨rfl, -⟩ := hstep
        unfold State.startRemoved
        split <;> constructor <;> simp only [State.call] at * <;> grind -ring -linarith
      · simp only [Option.some.injEq, Prod.mk.injEq] at hstep
        obtain ⟨rfl, -⟩ := hstep
        obtain ⟨htodo, hdoing, hrunning', hmembers⟩ :=
          accept_course (State.call { s with running := none } (.added o true)) o revision
        constructor <;> simp only [htodo, hdoing, hrunning'] at * <;> simp only [State.call] at * <;> grind -ring -linarith

section
variable [DecidableEq V]

theorem Course.take (hidle : s.running = none) (htodo : s.todo = []) (op : HookOp V) : Course (s.take F op).1 := by
  unfold State.take
  split
  · split
    · exact .idle htodo rfl
    · rename_i revocation epoch ns revision localDispatch observers hseen
      obtain ⟨⟨f, hf⟩, hfresh⟩ := ackHeld_eq
        { s with revoked := false, ns := some ns, localDispatch := localDispatch && F.wantsLocal
                 doing := some (.registered revocation epoch ns revision localDispatch observers) } revision observers
      simp only [hf]
      have hitem : ∀ item ∈ ((s.members.map (·.view.id)).filter fun id => id ∉ observers.map (·.id)).map Item.drop ++
          ((State.ackHeld { s with revoked := false, ns := some ns, localDispatch := localDispatch && F.wantsLocal
                                   doing := some (.registered revocation epoch ns revision localDispatch observers) }
            revision observers).2.2.map (Item.refresh · ns revision)) ++ [.settle revision],
          (∃ id, item = .drop id) ∨ (∃ view ∈ observers, item = .refresh view ns revision) ∨
            item = .settle revision := by
        intro item hitem
        simp only [List.mem_append, List.mem_map, List.mem_singleton] at hitem
        rcases hitem with (⟨id, -, rfl⟩ | ⟨view, hview, rfl⟩) | rfl
        · exact .inl ⟨id, rfl⟩
        · exact .inr (.inl ⟨view, hfresh view hview, rfl⟩)
        · exact .inr (.inr rfl)
      apply Course.of_taken
      · exact hidle
      · intro view ns' revision' hmem
        rcases hitem _ hmem with ⟨id, h⟩ | ⟨view, -, h⟩ | h <;> cases h
      · rintro _ _ _ _ _ _ ⟨⟩
        refine ⟨fun m hm => ?_, fun view ns' revision' hmem => ?_⟩
        · by_cases hid : m.view.id ∈ observers.map (·.id)
          · exact .inl hid
          · refine .inr (List.mem_append_left _ (List.mem_append_left _ (List.mem_map_of_mem ?_)))
            exact List.mem_filter.mpr ⟨List.mem_map_of_mem hm, by simpa using hid⟩
        · rcases hitem _ hmem with ⟨id, h⟩ | ⟨view, hview, h⟩ | h
          · cases h
          · cases h
            exact List.mem_map_of_mem hview
          · cases h
      · rintro _ ⟨⟩
  · split
    · exact .idle htodo rfl
    · simp only
      split
      · split
        · constructor <;> simp [State.ackAgain, hidle]
        · constructor <;> simp [hidle]
      · constructor <;> simp [hidle]
  · split
    · exact .idle htodo rfl
    · constructor <;> simp [hidle]
  · constructor <;> simp [State.publish, htodo]
  · apply Course.of_taken
    · exact hidle
    · simp
    · rintro _ _ _ _ _ _ ⟨⟩
    · rintro _ ⟨⟩
      refine ⟨fun m hm => ?_, by simp⟩
      exact List.mem_append_left _ (List.mem_map.mpr ⟨m, hm, rfl⟩)

theorem Fit.step (h : Fit F s) (hcourse : Course s) {a : Act V} {r : Sent V} (horderly : orderly s a = true)
    (hstep : s.step F a = some (s', r)) : Fit F s' := by
  cases a with
  | finish outcome => exact h.finish horderly hstep
  | next =>
    rcases State.next_cases hstep with ⟨item, todo, hidle, htodo, rfl, -⟩ | ⟨op, ops, hidle, -, -, rfl, -⟩
    · have h' : Fit F { s with todo := todo } := h.of_eq rfl rfl rfl rfl rfl rfl (.inl rfl)
      cases item with
      | drop id => exact h'.removeMember hidle id
      | refresh view ns revision =>
        have h' : Fit F { s with todo := .add view ns revision :: todo } :=
          h.of_eq rfl rfl rfl rfl rfl rfl (.inl rfl)
        exact h'.removeMember hidle view.id
      | add view ns revision => exact h'.addMember hidle (hcourse.add _ _ _ _ htodo)
      | settle revision => exact h.of_eq rfl rfl rfl rfl rfl rfl (.inl rfl)
      | rewind last => exact h.of_eq rfl rfl rfl rfl rfl rfl (.inl rfl)
    · have h' : Fit F { s with ops := ops } := h.of_eq rfl rfl rfl rfl rfl rfl (.inl rfl)
      exact h'.take hidle op
  | reject o error =>
    simp only [State.step] at hstep
    split at hstep
    · rename_i hmade
      simp only [Option.some.injEq, Prod.mk.injEq] at hstep
      obtain ⟨rfl, -⟩ := hstep
      exact h.reject hmade (by simpa [orderly] using horderly)
    · cases hstep
  | release | reset last | unlist =>
    simp only [State.step, Option.some.injEq, Prod.mk.injEq] at hstep
    obtain ⟨rfl, -⟩ := hstep
    exact h.of_eq rfl rfl rfl rfl rfl rfl (.inl rfl)
  | functionRegistered | observerAdded | observerRemoved =>
    simp only [State.step, Option.ite_none_right_eq_some, Option.some.injEq, Prod.mk.injEq] at hstep
    obtain ⟨-, rfl, -⟩ := hstep
    exact h.of_eq rfl rfl rfl rfl rfl rfl (.inl rfl)

theorem Course.step (h : Course s) {a : Act V} {r : Sent V} (hstep : s.step F a = some (s', r)) : Course s' := by
  cases a with
  | finish outcome => exact h.finish hstep
  | next =>
    rcases State.next_cases hstep with ⟨item, todo, hidle, htodo, rfl, -⟩ | ⟨op, ops, hidle, htodo, -, rfl, -⟩
    · exact h.work hidle htodo
    · exact Course.take (s := { s with ops := ops }) hidle htodo op
  | reject o error =>
    simp only [State.step] at hstep
    split at hstep
    · simp only [Option.some.injEq, Prod.mk.injEq] at hstep
      obtain ⟨rfl, -⟩ := hstep
      unfold State.reject
      simp only
      split
      · split <;> exact h.of_eq rfl rfl rfl rfl
      · exact h.of_eq rfl rfl rfl rfl
    · cases hstep
  | release | reset last | unlist =>
    simp only [State.step, Option.some.injEq, Prod.mk.injEq] at hstep
    obtain ⟨rfl, -⟩ := hstep
    exact h.of_eq rfl rfl rfl rfl
  | functionRegistered | observerAdded | observerRemoved =>
    simp only [State.step, Option.ite_none_right_eq_some, Option.some.injEq, Prod.mk.injEq] at hstep
    obtain ⟨-, rfl, -⟩ := hstep
    exact h.of_eq rfl rfl rfl rfl

omit [DecidableEq V] in
theorem fit_start : Fit F (State.start : State V) := by
  constructor <;> simp [State.start, Open, Balanced]

omit [DecidableEq V] in
theorem course_start : Course (State.start : State V) := .idle rfl rfl

/-- In every run without a rejection where it is not undone, each `on_observer_added` that
returned `Ok` is followed by one `on_observer_removed` before its id is added again, at the latest
when a `functionregistered` that does not list it or a `Reset` was processed, and the compiled set
has only observers in between that were not rejected. -/
theorem hooks_balanced {tr : List (Act V × Sent V)} (h : ((machine F).only fun s a => orderly s a = true).Run .start tr s) :
    Balanced s.calls ∧
    (∀ revocation epoch ns revision localDispatch views,
      s.running = none → s.todo = [] →
      s.doing = some (.registered revocation epoch ns revision localDispatch views) →
      ∀ o, Open s o → o.view.id ∈ views.map (·.id)) ∧
    (∀ last, s.running = none → s.todo = [] → s.doing = some (.reset last) → ∀ o, ¬ Open s o) ∧
    ∀ o ∈ s.compiled, s.rejection o.ref = none ∧ (F.hooks = true → Open s o) := by
  obtain ⟨hfit, hcourse⟩ := h.invariant (I := fun s => Fit F s ∧ Course s) ⟨fit_start, course_start⟩
    (fun ⟨hfit, hcourse⟩ ⟨horderly, hstep⟩ => ⟨hfit.step hcourse horderly hstep, hcourse.step hstep⟩)
  have hmember : ∀ o, Open s o → o ∈ s.members := by
    intro o hopen
    cases hhooks : F.hooks with
    | false =>
      have hnil := hfit.quiet hhooks
      simp [Open, hnil] at hopen
    | true => exact (hfit.opened hhooks o).mp hopen
  refine ⟨hfit.balanced, ?_, ?_, ?_⟩
  · intro revocation epoch ns revision localDispatch views _ htodo hdoing o hopen
    have hlisted := (hcourse.registered _ _ _ _ _ _ hdoing).1 o (hmember o hopen)
    simpa [htodo] using hlisted
  · intro last _ htodo hdoing o hopen
    have hdropped := (hcourse.reset last hdoing).1 o (hmember o hopen)
    simp [htodo] at hdropped
  · intro o ho
    obtain ⟨hmem, hactive⟩ := hfit.compiled o ho
    exact ⟨hfit.active _ hactive, fun hhooks => (hfit.opened hhooks o).mpr hmem⟩

end

/-- A function with hooks, without filters. -/
def hooked : Function Unit := { hooks := true, wantsLocal := false, hookTimeout := "30s", filters := fun _ => none }

def added : List (Act Unit) :=
  [.observerAdded "default" 1 ⟨"o", ()⟩, .next, .next, .next]

def late : Observer Unit := { ref := 0, view := ⟨"o", ()⟩, ns := "default" }

theorem hooks_balanced_removed :
    ∃ tr s, ((machine hooked).only fun s a => orderly s a = true).Run .start tr s ∧
      s.calls = [.removed late, .added late true, .adding late] ∧ Balanced s.calls := by
  have hexec : ∃ tr s, Machine.exec (fun s a => if orderly s a then s.step hooked a else none) State.start
      (added ++ [Act.finish .ok, .next, .observerRemoved 2 "o", .next, .next]) = some (tr, s) ∧
      s.calls = [.removed late, .added late true, .adding late] := ⟨_, _, rfl, rfl⟩
  obtain ⟨tr, s, hexec, hcalls⟩ := hexec
  have hrun := Machine.Run.of_exec
    (M := (machine hooked).only fun s a => orderly s a = true) (by simp [Machine.only, machine]) hexec
  exact ⟨tr, s, hrun, hcalls, (hooks_balanced hrun).1⟩

/-- The observer is rejected while it is added: nothing removes it. -/
theorem rejected_while_added : ∃ tr s, (machine hooked).Run .start tr s ∧ s.running = none ∧ s.todo = [] ∧
    s.doing = some (.reset false) ∧ Open s late := by
  have hexec : ∃ tr s, Machine.exec (State.step hooked) State.start
      (added ++ [Act.reject late ⟨"GONE", ""⟩, .finish .ok, .next, .release, .reset false, .next, .next]) = some (tr, s) ∧
      s.running = none ∧ s.todo = [] ∧ s.doing = some (.reset false) ∧
      s.calls = [.added late true, .adding late] := ⟨_, _, rfl, rfl, rfl, rfl, rfl⟩
  obtain ⟨tr, s, hexec, hrunning, htodo, hdoing, hcalls⟩ := hexec
  have hrun := Machine.Run.of_exec (M := machine hooked) (by simp [machine]) hexec
  exact ⟨tr, s, hrun, hrunning, htodo, hdoing, by simp [Open, hcalls]⟩

end Iii.Hooks
