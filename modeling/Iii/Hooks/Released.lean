import Iii.Hooks.Task

/-! A released function.

`release` bumps the revocation. A `functionregistered` carries the revocation of its arrival, and
is passed over when it is not the current one; an `on_observer_added` that a release overtook is
undone. Neither is asked before the next observer of the same `functionregistered`, nor of an
`observeradded` that was queued: those are added as if the function were still ours. -/
namespace Iii.Hooks
open Lib

variable {V : Type} {F : Function V} {s s' : State V}

def releases (tr : List (Act V × Sent V)) : Nat :=
  tr.countP fun p => match p.1 with
    | .release => true
    | _ => false

/-- The operation is a `functionregistered` that arrived after the last release. -/
def HookOp.confirms (releases : Nat) : HookOp V → Bool
  | registered revocation _ _ _ _ _ => revocation == releases
  | _ => false

/-- In a run, the last step first: the function was released, and no `functionregistered` that
arrived later was taken since. -/
def released : List (Act V × Sent V) → Bool
  | [] => false
  | (.release, _) :: _ => true
  | (_, r) :: tr =>
    match r.took with
    | some op => !op.confirms (releases tr) && released tr
    | none => released tr

/-- No `observeradded` is taken and no observer is added while the function is revoked. -/
def timely (s : State V) : Act V → Bool
  | .next =>
    match s.running, s.todo, s.ops with
    | none, .add _ _ _ :: _, _ => !s.revoked
    | none, [], .added _ revision _ :: _ => !s.revoked || revision ≤ s.revision
    | _, _, _ => true
  | _ => true

/-- The callback that runs saw the current revocation only if the function is still ours. -/
structure Own (s : State V) : Prop where
  off : s.revoked = true → s.localDispatch = false ∧ s.confirmedEpoch = 0
  adding : ∀ o revision revocation, s.running = some (.adding o revision revocation) →
    revocation ≤ s.revocation ∧ (revocation = s.revocation → s.revoked = false)

theorem own_start : Own (State.start : State V) := by
  constructor <;> simp [State.start]

/-- The parts of the state that only a release and a `functionregistered` change. -/
def State.hold (s : State V) : Nat × Bool × Bool × Nat := (s.revocation, s.revoked, s.localDispatch, s.confirmedEpoch)

theorem removeMember_hold (F : Function V) (s : State V) (id : String) :
    (s.removeMember F id).hold = s.hold ∧
      ((s.removeMember F id).running = s.running ∨ ∃ o, (s.removeMember F id).running = some (.removing o)) ∧
      ∀ r, (s.removeMember F id).active r = true → s.active r = true := by
  unfold State.removeMember
  split
  · exact ⟨rfl, .inl rfl, fun _ h => h⟩
  · unfold State.startRemoved
    split
    all_goals
      refine ⟨rfl, by simp [State.publish, State.deactivate], fun r h => ?_⟩
      simp only [State.call, State.publish, State.deactivate, Function.update_apply] at h
      grind -ring -linarith

theorem accept_hold (s : State V) (o : Observer V) (revision : Nat) :
    (s.accept o revision).1.hold = s.hold ∧ (s.accept o revision).1.running = s.running := by
  unfold State.accept
  split <;> exact ⟨rfl, rfl⟩

theorem addMember_hold (F : Function V) (s : State V) (view : View V) (ns : String) (revision : Nat) :
    (s.addMember F view ns revision).1.hold = s.hold ∧
      ((s.addMember F view ns revision).1.running = s.running ∨
        ∃ o, (s.addMember F view ns revision).1.running = some (.adding o revision s.revocation)) := by
  unfold State.addMember
  split
  · exact ⟨rfl, .inl rfl⟩
  · split
    · exact ⟨rfl, .inr ⟨_, rfl⟩⟩
    · obtain ⟨hhold, hrunning⟩ := accept_hold
        { s with made := { ref := s.made.length, view, ns } :: s.made
                 announced := Function.update s.announced s.made.length revision }
        { ref := s.made.length, view, ns } revision
      exact ⟨hhold, .inl hrunning⟩

theorem Own.of_hold (h : Own s) (hhold : s'.hold = s.hold)
    (hrunning : s'.running = s.running ∨ (∀ o revision revocation, s'.running ≠ some (.adding o revision revocation)) ∨
      s.revoked = false ∧ ∃ o revision, s'.running = some (.adding o revision s.revocation)) : Own s' := by
  simp only [State.hold, Prod.mk.injEq] at hhold
  obtain ⟨hrevocation, hrevoked, hlocal, hepoch⟩ := hhold
  obtain ⟨hoff, hadding⟩ := h
  constructor <;> simp only [hrevocation, hrevoked, hlocal, hepoch]
  · exact hoff
  · grind -ring -linarith

/-- Nothing is switched on: no observer, no positive ack. -/
def Off (s s' : State V) (r : Sent V) : Prop :=
  (∀ ref, s'.active ref = true → s.active ref = true) ∧ ∀ ack ∈ r.acks, ack.error ≠ none

theorem finish_own (h : Own s) {outcome : Outcome} {r : Sent V} (hstep : s.finish F outcome = some (s', r)) :
    Own s' ∧ s'.hold = s.hold ∧ (s.revoked = true → Off s s' r) ∧ r.took = none := by
  unfold State.finish at hstep
  split at hstep
  · cases hstep
  · simp only [Option.some.injEq, Prod.mk.injEq] at hstep
    obtain ⟨rfl, rfl⟩ := hstep
    exact ⟨h.of_hold rfl (.inr (.inl (by simp))), rfl, fun _ => ⟨fun _ h => h, by simp⟩, rfl⟩
  · rename_i o revision revocation hrunning
    simp only at hstep
    split at hstep
    · simp only [Option.some.injEq, Prod.mk.injEq] at hstep
      obtain ⟨rfl, rfl⟩ := hstep
      exact ⟨h.of_hold rfl (.inr (.inl (by simp [State.call]))), rfl, fun _ => ⟨fun _ h => h, by simp⟩, rfl⟩
    · split at hstep
      · simp only [Option.some.injEq, Prod.mk.injEq] at hstep
        obtain ⟨rfl, rfl⟩ := hstep
        unfold State.startRemoved
        split
        · exact ⟨h.of_hold rfl (.inr (.inl (by simp))), rfl, fun _ => ⟨fun _ h => h, by simp⟩, rfl⟩
        · exact ⟨h.of_hold rfl (.inr (.inl (by simp [State.call]))), rfl, fun _ => ⟨fun _ h => h, by simp⟩, rfl⟩
      · rename_i hseen
        -- The revocation is the one the callback saw, so the function is ours.
        have hours := (h.adding o revision revocation hrunning).2 (by simpa [State.call, eq_comm] using hseen)
        simp only [Option.some.injEq, Prod.mk.injEq] at hstep
        obtain ⟨rfl, rfl⟩ := hstep
        obtain ⟨hhold, hidle⟩ := accept_hold (State.call { s with running := none } (.added o true)) o revision
        refine ⟨h.of_hold hhold (.inr (.inl ?_)), hhold, fun hrevoked => ?_, rfl⟩
        · intro o' revision' revocation'
          rw [hidle]
          simp [State.call]
        · simp [hours] at hrevoked

theorem reject_own (h : Own s) (o : Observer V) (error : ErrorBody) :
    Own (s.reject o error).1 ∧ (s.reject o error).1.hold = s.hold ∧
      Off s (s.reject o error).1 { acks := (s.reject o error).2 } := by
  unfold State.reject
  simp only
  split
  · split
    all_goals
      refine ⟨h.of_hold rfl (.inl rfl), rfl, fun ref hactive => ?_, by simp⟩
      simp only [State.enqueue, State.dropInactive, State.deactivate, Function.update_apply] at hactive
      grind -ring -linarith
  · exact ⟨h.of_hold rfl (.inl rfl), rfl, fun ref hactive => hactive, by simp⟩

theorem work_own (h : Own s) (hidle : s.running = none) {item : Item V} {todo : List (Item V)}
    (htodo : s.todo = item :: todo) (htimely : timely s .next = true) :
    Own (State.work F { s with todo := todo } item).1 ∧ (State.work F { s with todo := todo } item).1.hold = s.hold ∧
      (s.revoked = true → Off s (State.work F { s with todo := todo } item).1
        { acks := (State.work F { s with todo := todo } item).2 }) := by
  cases item with
  | drop id =>
    obtain ⟨hhold, hrunning, hactive⟩ := removeMember_hold F { s with todo := todo } id
    refine ⟨h.of_hold hhold ?_, hhold, fun _ => ⟨hactive, by simp [State.work]⟩⟩
    simp only [State.work]
    grind -ring -linarith
  | refresh view ns revision =>
    obtain ⟨hhold, hrunning, hactive⟩ := removeMember_hold F { s with todo := .add view ns revision :: todo } view.id
    refine ⟨h.of_hold hhold ?_, hhold, fun _ => ⟨hactive, by simp [State.work]⟩⟩
    simp only [State.work]
    grind -ring -linarith
  | add view ns revision =>
    obtain ⟨hhold, hrunning⟩ := addMember_hold F { s with todo := todo } view ns revision
    have hours : s.revoked = false := by simpa [timely, hidle, htodo] using htimely
    refine ⟨h.of_hold hhold ?_, hhold, fun hrevoked => by simp [hours] at hrevoked⟩
    simp only [State.work]
    rcases hrunning with hrunning | ⟨o, hrunning⟩
    · exact .inl hrunning
    · exact .inr (.inr ⟨hours, o, revision, hrunning⟩)
  | settle revision => exact ⟨h.of_hold rfl (.inl rfl), rfl, fun _ => ⟨fun _ h => h, by simp [State.work]⟩⟩
  | rewind last => exact ⟨h.of_hold rfl (.inl rfl), rfl, fun _ => ⟨fun _ h => h, by simp [State.work]⟩⟩

section
variable [DecidableEq V]

theorem ackHeld_hold (s : State V) (revision : Nat) (views : List (View V)) :
    (s.ackHeld revision views).1.hold = s.hold ∧ (s.ackHeld revision views).1.running = s.running := by
  induction views generalizing s with
  | nil => exact ⟨rfl, rfl⟩
  | cons view views ih =>
    unfold State.ackHeld
    split
    · split
      · exact ih (s.ackAgain _ revision).1
      · exact ih s
    · exact ih s

/-- A `functionregistered` that is not passed over confirms the function. Nothing else that is
taken switches anything on. -/
theorem take_own (h : Own s) (hidle : s.running = none) (htodo : s.todo = []) {op : HookOp V} {ops : List (HookOp V)}
    (hops : s.ops = op :: ops) (htimely : timely s .next = true) :
    Own (State.take F { s with ops := ops } op).1 ∧
      (State.take F { s with ops := ops } op).1.revocation = s.revocation ∧
      (State.take F { s with ops := ops } op).1.revoked = (!op.confirms s.revocation && s.revoked) ∧
      (s.revoked = true → op.confirms s.revocation = false → Off s (State.take F { s with ops := ops } op).1
        { took := some op, acks := (State.take F { s with ops := ops } op).2 }) := by
  cases op with
  | registered revocation epoch ns revision localDispatch observers =>
    simp only [State.take, HookOp.confirms]
    split
    · rename_i hseen
      have hne : (revocation == s.revocation) = false := beq_false_of_ne (Ne.symm hseen)
      exact ⟨h.of_hold rfl (.inl rfl), rfl, by simp [hne], fun _ _ => ⟨fun _ h => h, by simp⟩⟩
    · rename_i hseen
      have heq : (revocation == s.revocation) = true := beq_of_eq (Decidable.not_not.mp hseen).symm
      obtain ⟨hhold, hrunning⟩ := ackHeld_hold
        { s with ops := ops, revoked := false, ns := some ns, localDispatch := localDispatch && F.wantsLocal
                 doing := some (.registered revocation epoch ns revision localDispatch observers) } revision observers
      simp only [State.hold, Prod.mk.injEq] at hhold
      refine ⟨⟨?_, ?_⟩, hhold.1, ?_, ?_⟩
      · simp [hhold.2.1]
      · intro o' revision' revocation' hadding
        simp [hrunning.trans hidle] at hadding
      · simp [hhold.2.1, heq]
      · simp [heq]
  | added ns revision view =>
    simp only [State.take, HookOp.confirms]
    split
    · exact ⟨h.of_hold rfl (.inl rfl), rfl, by simp, fun _ _ => ⟨fun _ h => h, by simp⟩⟩
    · rename_i hfresh
      have hours : s.revoked = false := by
        have hor : s.revoked = false ∨ revision ≤ s.revision := by
          simpa [timely, hidle, htodo, hops] using htimely
        exact hor.resolve_right hfresh
      split
      · split
        · exact ⟨h.of_hold rfl (.inl rfl), rfl, rfl, by simp [hours]⟩
        · exact ⟨h.of_hold rfl (.inl rfl), rfl, rfl, by simp [hours]⟩
      · exact ⟨h.of_hold rfl (.inl rfl), rfl, rfl, by simp [hours]⟩
  | removed revision id =>
    simp only [State.take, HookOp.confirms]
    split <;> exact ⟨h.of_hold rfl (.inl rfl), rfl, by simp, fun _ _ => ⟨fun _ h => h, by simp⟩⟩
  | republish => exact ⟨h.of_hold rfl (.inl rfl), rfl, rfl, fun _ _ => ⟨fun _ h => h, by simp [State.take]⟩⟩
  | reset last =>
    refine ⟨⟨fun _ => ⟨rfl, rfl⟩, ?_⟩, rfl, rfl, fun _ _ => ⟨fun _ h => h, by simp [State.take]⟩⟩
    simp [State.take, State.revoke, hidle]

omit [DecidableEq V] in
theorem trace_keep {a : Act V} {r : Sent V} (tr : List (Act V × Sent V)) (ha : a ≠ .release) (htook : r.took = none) :
    releases ((a, r) :: tr) = releases tr ∧ released ((a, r) :: tr) = released tr := by
  cases a <;> first | exact absurd rfl ha | simp [releases, released, htook]

/-- What one step can do to a released function. -/
theorem step_own (h : Own s) {a : Act V} {r : Sent V} (htimely : timely s a = true)
    (hstep : s.step F a = some (s', r)) {tr : List (Act V × Sent V)} (hcount : releases tr = s.revocation)
    (hreleased : released tr = s.revoked) :
    Own s' ∧ releases ((a, r) :: tr) = s'.revocation ∧ released ((a, r) :: tr) = s'.revoked ∧
      (s.revoked = true → (∃ op, r.took = some op ∧ op.confirms (releases tr) = true) ∨ Off s s' r) := by
  -- A step that keeps the entry's revocation and takes no operation.
  have hkeep : a ≠ .release → r.took = none → s'.hold = s.hold →
      releases ((a, r) :: tr) = s'.revocation ∧ released ((a, r) :: tr) = s'.revoked := by
    intro ha htook hhold
    obtain ⟨hc, hr⟩ := trace_keep tr ha htook
    simp only [State.hold, Prod.mk.injEq] at hhold
    exact ⟨by rw [hc, hcount, hhold.1], by rw [hr, hreleased, hhold.2.1]⟩
  cases a with
  | finish outcome =>
    obtain ⟨hown, hhold, hoff, htook⟩ := finish_own h hstep
    obtain ⟨hc, hr⟩ := hkeep (by simp) htook hhold
    exact ⟨hown, hc, hr, fun hrevoked => .inr (hoff hrevoked)⟩
  | next =>
    rcases State.next_cases hstep with ⟨item, todo, hidle, htodo, rfl, rfl⟩ | ⟨op, ops, hidle, htodo, hops, rfl, rfl⟩
    · obtain ⟨hown, hhold, hoff⟩ := work_own (F := F) h hidle htodo htimely
      obtain ⟨hc, hr⟩ := hkeep (by simp) rfl hhold
      exact ⟨hown, hc, hr, fun hrevoked => .inr (hoff hrevoked)⟩
    · obtain ⟨hown, hrevocation, hrevoked, hoff⟩ := take_own (F := F) h hidle htodo hops htimely
      refine ⟨hown, ?_, ?_, fun hrevoked => ?_⟩
      · rw [hrevocation, ← hcount]
        simp [releases]
      · rw [hrevoked, ← hcount, ← hreleased]
        rfl
      · cases hconfirms : op.confirms s.revocation with
        | true => exact .inl ⟨op, rfl, by rw [hcount, hconfirms]⟩
        | false => exact .inr (hoff hrevoked hconfirms)
  | reject o error =>
    simp only [State.step] at hstep
    split at hstep
    · simp only [Option.some.injEq, Prod.mk.injEq] at hstep
      obtain ⟨rfl, rfl⟩ := hstep
      obtain ⟨hown, hhold, hoff⟩ := reject_own h o error
      obtain ⟨hc, hr⟩ := hkeep (by simp) rfl hhold
      exact ⟨hown, hc, hr, fun _ => .inr hoff⟩
    · cases hstep
  | release =>
    simp only [State.step, Option.some.injEq, Prod.mk.injEq] at hstep
    obtain ⟨rfl, rfl⟩ := hstep
    refine ⟨⟨fun _ => ⟨rfl, rfl⟩, fun o revision revocation hrunning => ?_⟩, ?_, rfl,
      fun _ => .inr ⟨fun _ h => h, by simp⟩⟩
    · have hle := (h.adding o revision revocation hrunning).1
      simp only [State.release, State.revoke]
      omega
    · show releases _ = s.revocation + 1
      rw [← hcount]
      simp [releases]
  | reset last | unlist =>
    simp only [State.step, Option.some.injEq, Prod.mk.injEq] at hstep
    obtain ⟨rfl, rfl⟩ := hstep
    obtain ⟨hc, hr⟩ := hkeep (by simp) rfl rfl
    exact ⟨h.of_hold rfl (.inl rfl), hc, hr, fun _ => .inr ⟨fun _ h => h, by simp⟩⟩
  | functionRegistered | observerAdded | observerRemoved =>
    simp only [State.step, Option.ite_none_right_eq_some, Option.some.injEq, Prod.mk.injEq] at hstep
    obtain ⟨-, rfl, rfl⟩ := hstep
    obtain ⟨hc, hr⟩ := hkeep (by simp) rfl rfl
    exact ⟨h.of_hold rfl (.inl rfl), hc, hr, fun _ => .inr ⟨fun _ h => h, by simp⟩⟩

theorem run_own {tr : List (Act V × Sent V)} (h : ((machine F).only fun s a => timely s a = true).Run .start tr s) :
    Own s ∧ releases tr = s.revocation ∧ released tr = s.revoked := by
  induction h with
  | nil => exact ⟨own_start, rfl, rfl⟩
  | step _ hstep ih =>
    obtain ⟨hown, hcount, hreleased⟩ := ih
    obtain ⟨hown', hcount', hreleased', -⟩ := step_own hown hstep.1 hstep.2 hcount hreleased
    exact ⟨hown', hcount', hreleased'⟩

/-- In every run in which nothing is added while the function is revoked: from a release on, local
dispatch and the confirmed epoch are off, and until a `functionregistered` that arrived later is
taken no step makes an observer active or sends a positive ack. -/
theorem released_stays {tr : List (Act V × Sent V)}
    (h : ((machine F).only fun s a => timely s a = true).Run .start tr s) (hreleased : released tr = true) :
    s.localDispatch = false ∧ s.confirmedEpoch = 0 ∧
    ∀ a s' r, timely s a = true → s.step F a = some (s', r) →
      (∃ op, r.took = some op ∧ op.confirms (releases tr) = true) ∨ Off s s' r := by
  obtain ⟨hown, hcount, hrevoked⟩ := run_own h
  rw [hreleased] at hrevoked
  obtain ⟨hlocal, hepoch⟩ := hown.off hrevoked.symm
  refine ⟨hlocal, hepoch, fun a s' r htimely hstep => ?_⟩
  exact (step_own hown htimely hstep hcount (hreleased.trans hrevoked)).2.2.2 hrevoked.symm

end

/-- An observable function without hooks, without filters. -/
def plain : Function Unit := { hooks := false, wantsLocal := true, hookTimeout := "30s", filters := fun _ => none }

def confirmed : List (Act Unit) := [.functionRegistered 1 "default" 1 true [], .next, .next]

theorem released_stays_conflict :
    ∃ tr s, ((machine plain).only fun s a => timely s a = true).Run .start tr s ∧ released tr = true ∧
      s.localDispatch = false ∧ s.confirmedEpoch = 0 := by
  have hexec : ∃ tr s, Machine.exec (fun s a => if timely s a then s.step plain a else none) State.start
      (confirmed ++ [Act.release, .reset false]) = some (tr, s) ∧ released tr = true := ⟨_, _, rfl, rfl⟩
  obtain ⟨tr, s, hexec, hreleased⟩ := hexec
  have hrun := Machine.Run.of_exec
    (M := (machine plain).only fun s a => timely s a = true) (by simp [Machine.only, machine]) hexec
  obtain ⟨hlocal, hepoch, -⟩ := released_stays hrun hreleased
  exact ⟨tr, s, hrun, hreleased, hlocal, hepoch⟩

/-- An `observeradded` that was queued when the function was released is added all the same. -/
theorem queued_added_activates : ∃ tr s s' r, (machine plain).Run .start tr s ∧ released tr = true ∧
    s.step plain .next = some (s', r) ∧ r.took = none ∧ r.acks = [{ id := "o", revision := 2, error := none }] ∧
    s.active 0 = false ∧ s'.active 0 = true := by
  have hexec : ∃ tr s s' r, Machine.exec (State.step plain) State.start
      (confirmed ++ [Act.observerAdded "default" 2 ⟨"o", ()⟩, .release, .reset false, .next, .next]) = some (tr, s) ∧
      released tr = true ∧ s.step plain .next = some (s', r) ∧ r.took = none ∧
      r.acks = [{ id := "o", revision := 2, error := none }] ∧ s.active 0 = false ∧ s'.active 0 = true :=
    ⟨_, _, _, _, rfl, rfl, rfl, rfl, rfl, rfl, rfl⟩
  obtain ⟨tr, s, s', r, hexec, hrest⟩ := hexec
  exact ⟨tr, s, s', r, Machine.Run.of_exec (M := machine plain) (by simp [machine]) hexec, hrest⟩

end Iii.Hooks
