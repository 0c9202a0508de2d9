import Iii.Configuration.Operations

/-! What is stored stays.

`ensure` and a `register` without an initial value decide on the cache what to write. Where no
edit of the id waits to be delivered that is what the adapter holds, and its value stays. Where
one does, it is overwritten. -/
namespace Iii.Configuration
open Lib

variable {V : Type} {J : Values V} {s s' : State V} {r : Option (Report V)}

/-- An operation that has not called the adapter was decided on the cache as it is. -/
def Decided (J : Values V) (s : State V) : Prop :=
  ∀ entry purpose, s.running = some (.registering entry purpose) →
    ∃ q, Opens J s.entries q (.registering entry purpose)

theorem Decided.step [DecidableEq V] {a : Act V} (h : Decided J s) (hstep : s.step J a = some (s', r)) :
    Decided J s' := by
  intro entry purpose hrunning
  cases a with
  | request q =>
    simp only [State.step] at hstep
    split at hstep
    · rename_i hfree
      have hnone := Option.isNone_iff_eq_none.mp hfree
      cases requested hstep with
      | opened q point hopens =>
        obtain rfl := Option.some.inj hrunning
        exact ⟨q, hopens⟩
      | refused => rw [hnone] at hrunning; cases hrunning
      | overridden => exact absurd (hnone.symm.trans hrunning) (by simp)
      | delivers => cases hrunning
    · cases hstep
  | call o =>
    obtain ⟨point, hpoint, hcall⟩ := Option.bind_eq_some_iff.mp hstep
    cases called hcall <;> cases hrunning
  | finish =>
    obtain ⟨point, hpoint, hfinish⟩ := Option.bind_eq_some_iff.mp hstep
    rw [(Agrees.finish_rest hfinish).1] at hrunning
    cases hrunning
  | edit e =>
    obtain ⟨s'', hedit, hs⟩ := Option.map_eq_some_iff.mp hstep
    cases hs
    obtain ⟨entry', change, rfl⟩ := edit_captures hedit
    exact h entry purpose hrunning

theorem value_kept [DecidableEq V] {entry : Entry V} {purpose : Purpose} {v : V} (hagrees : Agrees s)
    (hdecided : Decided J s) (hrunning : s.running = some (.registering entry purpose)) (hpurpose : purpose ≠ .given)
    (hqueue : ¬s.queued entry.id) (hnull : v ≠ J.null) (hv : (s.adapter entry.id).map (·.value) = some v) :
    entry.value = v := by
  have hcached : s.entries entry.id = s.adapter entry.id := by
    have hview := (hagrees.current entry.id).resolve_right hqueue
    simpa [State.view, hrunning] using hview
  obtain ⟨q, hopens⟩ := hdecided entry purpose hrunning
  rw [← hcached] at hv
  obtain ⟨prior, hprior, rfl⟩ := Option.map_eq_some_iff.mp hv
  cases hopens with
  | given => exact absurd rfl hpurpose
  | kept q hinitial => simp only [Registration.entry] at hprior ⊢; rw [hprior]; rfl
  | preserved q prior' hprior' _ =>
    obtain rfl := Option.some.inj (hprior'.symm.trans hprior)
    rfl
  | seeded q value hinitial hnone => exact absurd (hnone prior hprior) hnull
  | registered q hinitial hnone => exact absurd (hnone prior hprior) hnull

/-! ### One seed -/

/-- What else may happen to an id: anything but an `ensure` with a candidate. -/
def Act.disturbs (J : Values V) (id : String) : Act V → Prop
  | .request (.register q) => q.id = id
  | .request (.ensure q) => q.id = id ∧ ∀ v, q.initial = some v → v = J.null
  | .request (.set i _) => i = id
  | .request (.setMemory i _) => i = id
  | .request (.migrate source target) => source = id ∨ target = id
  | .request (.delete i) => i = id
  | .edit e => e.id = id
  | _ => False

/-- What the ensures of an id have reported, the last one first. -/
def ensured (id : String) (tr : List (Act V × Option (Report V))) : List (EnsureAction × V) :=
  tr.filterMap fun x => match x.2 with
    | some (.ensured action _ entry) => if entry.id = id then some (action, entry.value) else none
    | _ => none

/-- Whether the operation that has the lock is about the id. -/
def Point.isAbout (id : String) : Point V → Prop
  | .registering entry _ => entry.id = id
  | .registered entry _ _ => entry.id = id
  | .setting i _ => i = id
  | .stored entry _ => entry.id = id
  | .deleting i => i = id
  | .deleted i _ => i = id
  | .migrating source target => source = id ∨ target = id
  | .migrated source target _ _ => source = id ∨ target = id
  | .reconciling ids => id ∈ ids
  | .delivering change => change.id = id
  | .delivered change _ => change.id = id

/-- Before the first ensure has written, before it has returned, and after. -/
inductive Seeding (J : Values V) (id : String) (s : State V) : List (EnsureAction × V) → Prop where
  | fresh (hnone : ∀ e, s.entries id = some e → e.value = J.null)
      (hrunning : ∀ point, s.running = some point → point.isAbout id →
        ∃ entry, point = .registering entry (.ensured .seeded) ∧ entry.value ≠ J.null) : Seeding J id s []
  | written {entry : Entry V} {created : Bool} (hrunning : s.running = some (.registered entry (.ensured .seeded) created))
      (hid : entry.id = id) (hvalue : entry.value ≠ J.null) : Seeding J id s []
  | seeded (v : V) (n : Nat) (hv : v ≠ J.null) (hentries : (s.entries id).map (·.value) = some v)
      (hrunning : ∀ point, s.running = some point → point.isAbout id → ∃ entry,
        entry.value = v ∧ (point = .registering entry (.ensured .preserved) ∨
          ∃ created, point = .registered entry (.ensured .preserved) created)) :
      Seeding J id s (List.replicate n (.preserved, v) ++ [(.seeded, v)])

namespace Seeding
variable {id : String} {reports : List (EnsureAction × V)}

/-- The lock goes to an operation that is not about the id, or is free. -/
theorem other (h : Seeding J id s reports) (hentries : s'.entries id = s.entries id)
    (hbefore : ∀ point, s.running = some point → ¬point.isAbout id)
    (hafter : ∀ point, s'.running = some point → ¬point.isAbout id) : Seeding J id s' reports := by
  cases h with
  | fresh hnone _ => exact .fresh (hentries ▸ hnone) fun point hp hid => absurd hid (hafter point hp)
  | written hrunning hid => exact absurd hid (hbefore _ hrunning)
  | seeded v n hv hvalue _ =>
    exact .seeded v n hv (hentries ▸ hvalue) fun point hp hid => absurd hid (hafter point hp)

theorem requested {q : Request V} (h : Seeding J id s reports) (hqueue : ¬s.queued id) (hfree : s.running = none)
    (hq : ¬(Act.request q).disturbs J id) (hstep : Requested J s q s' r) : Seeding J id s' reports := by
  have hbefore (point : Point V) (hp : s.running = some point) : ¬point.isAbout id := by
    rw [hfree] at hp
    cases hp
  cases hstep with
  | refused => exact h
  | overridden i value entry old => exact h.other rfl hbefore hbefore
  | delivers change queue hchange =>
    refine h.other rfl hbefore fun point hp hid => hqueue ⟨change, ?_, ?_⟩
    · rw [hchange]
      exact List.mem_cons_self ..
    · obtain rfl := Option.some.inj hp
      exact hid
  | opened q point hopens =>
    by_cases habout : point.isAbout id
    · cases hopens with
      | given => exact absurd habout hq
      | kept => exact absurd habout hq
      | set => exact absurd habout hq
      | migrate => exact absurd habout hq
      | delete => exact absurd habout hq
      | registered q hinitial _ => exact absurd ⟨habout, by simp [hinitial]⟩ hq
      | preserved q prior hprior hvalue =>
        obtain rfl : q.id = id := habout
        cases h with
        | fresh hnone _ => exact absurd (hnone prior hprior) hvalue
        | written hrunning hid => exact absurd hid (hbefore _ hrunning)
        | seeded v n hv hentries _ =>
          refine .seeded v n hv hentries fun point hp _ => ?_
          obtain rfl := Option.some.inj hp
          rw [hprior] at hentries
          exact ⟨q.entry prior.value, Option.some.inj hentries, .inl rfl⟩
      | seeded q value hinitial hnone =>
        obtain rfl : q.id = id := habout
        have hvalue : value ≠ J.null := fun hnull => hq ⟨rfl, fun v hv => by
          rw [hinitial] at hv
          exact Option.some.inj hv ▸ hnull⟩
        cases h with
        | fresh _ _ =>
          refine .fresh hnone fun point hp _ => ?_
          obtain rfl := Option.some.inj hp
          exact ⟨_, rfl, hvalue⟩
        | written hrunning hid => exact absurd hid (hbefore _ hrunning)
        | seeded v n hv hentries _ =>
          obtain ⟨prior, hprior, rfl⟩ := Option.map_eq_some_iff.mp hentries
          exact absurd (hnone prior hprior) hv
    · refine h.other rfl hbefore fun p hp => ?_
      obtain rfl := Option.some.inj hp
      exact habout

theorem called {point : Point V} (h : Seeding J id s reports) (hkeyed : Keyed s.adapter)
    (hrunning : s.running = some point) (hstep : Called s point s' r) : Seeding J id s' reports := by
  by_cases habout : point.isAbout id
  · cases h with
    | fresh hnone hseed =>
      obtain ⟨entry, rfl, hvalue⟩ := hseed point hrunning habout
      cases hstep with
      | failed => exact .fresh hnone fun p hp => by cases hp
      | register => exact .written rfl habout hvalue
    | written hp =>
      obtain rfl := Option.some.inj (hp.symm.trans hrunning)
      cases hstep with
      | failed _ hcalls => exact hcalls.elim
    | seeded v n hv hentries hkeep =>
      obtain ⟨entry, hvalue, rfl | ⟨created, rfl⟩⟩ := hkeep point hrunning habout
      · cases hstep with
        | failed => exact .seeded v n hv hentries fun p hp => by cases hp
        | register =>
          refine .seeded v n hv hentries fun p hp _ => ?_
          obtain rfl := Option.some.inj hp
          exact ⟨entry, hvalue, .inr ⟨_, rfl⟩⟩
      · cases hstep with
        | failed _ hcalls => exact hcalls.elim
  · have hbefore (p : Point V) (hp : s.running = some p) : ¬p.isAbout id := by
      obtain rfl := Option.some.inj (hp.symm.trans hrunning)
      exact habout
    cases hstep with
    | failed => exact h.other rfl hbefore fun p hp => by cases hp
    | set i value entry hentry =>
      refine h.other rfl hbefore fun p hp => ?_
      obtain rfl := Option.some.inj hp
      change ¬entry.id = id
      rw [hkeyed i entry hentry]
      exact habout
    | broken source target first second _ _ =>
      refine h.other ?_ hbefore fun p hp => ?_
      · cases first <;> cases second <;> rfl
      · obtain rfl := Option.some.inj hp
        simpa [Point.isAbout, eq_comm] using habout
    | reconcile i ids hne =>
      have hmem : ¬id ∈ i :: ids := habout
      rw [List.mem_cons, not_or] at hmem
      refine h.other (Function.update_of_ne hmem.1 _ _) hbefore fun p hp => ?_
      obtain rfl := Option.some.inj hp
      exact hmem.2
    | reconcileLast i =>
      have hmem : ¬id ∈ [i] := habout
      rw [List.mem_singleton] at hmem
      exact h.other (Function.update_of_ne hmem _ _) hbefore fun p hp => by cases hp
    | _ =>
      refine h.other rfl hbefore fun p hp => ?_
      obtain rfl := Option.some.inj hp
      exact habout

theorem finished [DecidableEq V] {point : Point V} (h : Seeding J id s reports) (hrunning : s.running = some point)
    (hstep : s.finish point = some (s', r)) : Seeding J id s' (ensured id [(.finish, r)] ++ reports) := by
  have hview := Agrees.view_finished hrunning hstep id
  have hfree := (Agrees.finish_rest hstep).1
  have hafter (p : Point V) (hp : s'.running = some p) : ¬p.isAbout id := by
    rw [hfree] at hp
    cases hp
  by_cases habout : point.isAbout id
  · cases h with
    | fresh hnone hseed =>
      obtain ⟨entry, rfl, -⟩ := hseed point hrunning habout
      cases hstep
    | @written entry created hp hid hvalue =>
      obtain rfl := Option.some.inj (hp.symm.trans hrunning)
      have hentries : (s'.entries id).map (·.value) = some entry.value := by
        simp [hview, State.view, hrunning, hid]
      cases hstep
      have hone := Seeding.seeded (J := J) entry.value 0 hvalue hentries fun p hp hid => absurd hid (hafter p hp)
      simpa [ensured, hid] using hone
    | seeded v n hv hentries hkeep =>
      obtain ⟨entry, hvalue, rfl | ⟨created, rfl⟩⟩ := hkeep point hrunning habout
      · cases hstep
      · have hid : entry.id = id := habout
        have hentries' : (s'.entries id).map (·.value) = some v := by
          simp [hview, State.view, hrunning, hid, hvalue]
        cases hstep
        have hmore := Seeding.seeded (J := J) v (n + 1) hv hentries' fun p hp hid => absurd hid (hafter p hp)
        simpa [ensured, hid, hvalue, List.replicate_succ] using hmore
  · have hentries : s'.entries id = s.entries id := by
      rw [hview]
      cases point <;> simp [State.view, hrunning] <;> simp [Point.isAbout] at habout <;> grind -ring -linarith
    have hquiet : ensured id [(Act.finish, r)] = [] := by
      cases point with
      | registered entry purpose created =>
        cases hstep
        have hid : ¬entry.id = id := habout
        cases purpose <;> simp [ensured, hid]
      | _ => cases hstep <;> rfl
    rw [hquiet, List.nil_append]
    refine h.other hentries (fun p hp => ?_) hafter
    obtain rfl := Option.some.inj (hp.symm.trans hrunning)
    exact habout

theorem congr (h : Seeding J id s reports) (hentries : s'.entries = s.entries) (hrunning : s'.running = s.running) :
    Seeding J id s' reports := by
  cases h with
  | fresh hnone hseed => exact .fresh (hentries ▸ hnone) (hrunning ▸ hseed)
  | written hp hid hvalue => exact .written (hrunning ▸ hp) hid hvalue
  | seeded v n hv hvalue hkeep => exact .seeded v n hv (hentries ▸ hvalue) (hrunning ▸ hkeep)

theorem step [DecidableEq V] {a : Act V} (h : Seeding J id s reports) (hagrees : Agrees s) (hqueue : ¬s.queued id)
    (ha : ¬a.disturbs J id) (hstep : s.step J a = some (s', r)) :
    Seeding J id s' (ensured id [(a, r)] ++ reports) := by
  cases a with
  | request q =>
    simp only [State.step] at hstep
    split at hstep
    · rename_i hfree
      have hrequested := Configuration.requested hstep
      have hquiet : ensured id [(Act.request q, r)] = [] := by cases hrequested <;> rfl
      rw [hquiet]
      exact h.requested hqueue (Option.isNone_iff_eq_none.mp hfree) ha hrequested
    · cases hstep
  | call o =>
    obtain ⟨point, hrunning, hcall⟩ := Option.bind_eq_some_iff.mp hstep
    have hcalled := Configuration.called hcall
    have hquiet : ensured id [(Act.call o, r)] = [] := by cases hcalled <;> rfl
    rw [hquiet]
    exact h.called hagrees.keyed hrunning hcalled
  | finish =>
    obtain ⟨point, hrunning, hfinish⟩ := Option.bind_eq_some_iff.mp hstep
    exact h.finished hrunning hfinish
  | edit e =>
    obtain ⟨s'', hedit, hs⟩ := Option.map_eq_some_iff.mp hstep
    cases hs
    obtain ⟨entry, change, rfl⟩ := edit_captures hedit
    exact h.congr rfl rfl

end Seeding

/-- Nothing of the id is queued but by an edit of it. -/
theorem queued_step [DecidableEq V] {a : Act V} {id : String} (hkeyed : Keyed s.adapter)
    (hstep : s.step J a = some (s', r)) (ha : ∀ e, a = .edit e → e.id ≠ id) (h : ¬s.queued id) : ¬s'.queued id := by
  rintro ⟨c, hc, hid⟩
  cases a with
  | request q =>
    simp only [State.step] at hstep
    split at hstep
    · cases requested hstep with
      | delivers change queue hqueue => exact h ⟨c, by rw [hqueue]; exact List.mem_cons_of_mem _ hc, hid⟩
      | _ => exact h ⟨c, hc, hid⟩
    · cases hstep
  | call o =>
    obtain ⟨point, hrunning, hcall⟩ := Option.bind_eq_some_iff.mp hstep
    cases called hcall with
    | broken source target first second => cases first <;> cases second <;> exact h ⟨c, hc, hid⟩
    | _ => exact h ⟨c, hc, hid⟩
  | finish =>
    obtain ⟨point, hrunning, hfinish⟩ := Option.bind_eq_some_iff.mp hstep
    obtain ⟨-, -, -, hqueue, -⟩ := Agrees.finish_rest hfinish
    exact h ⟨c, hqueue ▸ hc, hid⟩
  | edit e =>
    obtain ⟨s'', hedit, hs⟩ := Option.map_eq_some_iff.mp hstep
    cases hs
    obtain ⟨entry, change, rfl, hchange, -⟩ := edited hkeyed hedit
    rcases List.mem_append.mp hc with hc | hc
    · exact h ⟨c, hc, hid⟩
    · obtain rfl := List.mem_singleton.mp hc
      exact ha e rfl (hchange.symm.trans hid)

/-- Several ensures of an id that has no value, and nothing else done to it: the first to write
has seeded it, and the others have preserved its value. -/
theorem one_seed [DecidableEq V] {id : String} {tr : List (Act V × Option (Report V))} (hagrees : Agrees s)
    (hfree : s.running = none) (hqueue : ¬s.queued id) (hnone : ∀ e, s.adapter id = some e → e.value = J.null)
    (hrun : (machine J).Run s tr s') (hquiet : ∀ x ∈ tr, ¬x.1.disturbs J id) :
    ensured id tr = [] ∨ ∃ v n, v ≠ J.null ∧
      ensured id tr = List.replicate n (.preserved, v) ++ [(.seeded, v)] := by
  have hstart : Seeding J id s [] := by
    have hview := (hagrees.current id).resolve_right hqueue
    simp only [State.view, hfree] at hview
    refine .fresh (hview ▸ hnone) fun p hp => ?_
    rw [hfree] at hp
    cases hp
  have hall : Agrees s' ∧ ¬s'.queued id ∧ Seeding J id s' (ensured id tr) := by
    induction hrun with
    | nil => exact ⟨hagrees, hqueue, hstart⟩
    | @step tr s₁ s₂ a r hrun hstep ih =>
      obtain ⟨hagrees₁, hqueue₁, hseeding⟩ := ih fun x hx => hquiet x (List.mem_cons_of_mem _ hx)
      have ha := hquiet _ (List.mem_cons_self ..)
      refine ⟨hagrees₁.step hstep, queued_step hagrees₁.keyed hstep (fun e he hid => ?_) hqueue₁, ?_⟩
      · subst he
        exact ha hid
      · have hcons : ensured id ((a, r) :: tr) = ensured id [(a, r)] ++ ensured id tr :=
          List.filterMap_append (l := [(a, r)])
        rw [hcons]
        exact hseeding.step hagrees₁ hqueue₁ ha hstep
  obtain ⟨-, -, hseeding⟩ := hall
  generalize ensured id tr = reports at hseeding ⊢
  cases hseeding with
  | fresh => exact .inl rfl
  | written => exact .inl rfl
  | seeded v n hv => exact .inr ⟨v, n, hv, rfl⟩

/-- In every run: an `ensure`, or a `register` without an initial value, that writes an id with no
edit of it queued leaves the value the adapter holds, unless that is null; and of several ensures
with candidates, on an id with no value and nothing queued, exactly the first to write seeds it. -/
theorem stored_value_kept [DecidableEq V] {stored : String → Option (Entry V)} (hstored : Keyed stored)
    {tr : List (Act V × Option (Report V))} (hrun : (machine J).Run (.primed stored) tr s) :
    (∀ entry purpose v s' r, s.running = some (.registering entry purpose) → purpose ≠ .given →
      ¬s.queued entry.id → v ≠ J.null → (s.adapter entry.id).map (·.value) = some v →
      (machine J).Step s (.call .done) r s' → (s'.adapter entry.id).map (·.value) = some v) ∧
    (∀ id mid s', s.running = none → ¬s.queued id → (∀ e, s.adapter id = some e → e.value = J.null) →
      (machine J).Run s mid s' → (∀ x ∈ mid, ¬x.1.disturbs J id) →
      ensured id mid = [] ∨ ∃ v n, v ≠ J.null ∧
        ensured id mid = List.replicate n (.preserved, v) ++ [(.seeded, v)]) := by
  have hagrees := Agrees.run hstored hrun
  have hdecided : Decided J s :=
    hrun.invariant (fun _ _ h => by cases h) fun h hstep => h.step hstep
  refine ⟨fun entry purpose v s' r hrunning hpurpose hqueue hv hvalue hstep => ?_,
    fun id mid s' hfree hqueue hnone hmid hquiet => one_seed hagrees hfree hqueue hnone hmid hquiet⟩
  have hkept := value_kept hagrees hdecided hrunning hpurpose hqueue hv hvalue
  change s.step J (.call .done) = some (s', r) at hstep
  simp only [State.step, hrunning, Option.bind_some, State.call, Option.some.injEq, Prod.mk.injEq] at hstep
  obtain ⟨rfl, -⟩ := hstep
  simp [State.goto, State.commit, hkept]

/-- What a worker that starts asks for: port seven, unless there is one. -/
def seedPort : Registration Nat where
  id := "port"
  name := "Port"
  description := "Where it listens"
  schema := 1
  initial := some 7
  metadata := none

/-- The worker's `ensure`, about to write the port that is there. -/
def ensuring : State Nat :=
  (State.primed ports).goto (some (.registering (seedPort.entry 1) (.ensured .preserved)))

theorem stored_value_kept_port : ∃ s', (machine numbers).Step ensuring (.call .done) none s' ∧
    (s'.adapter "port").map (·.value) = some 1 := by
  have hrun : (machine numbers).Run (.primed ports) [(.request (.ensure seedPort), none)] ensuring :=
    .step .nil (show State.step numbers _ _ = some _ from rfl)
  have hstep := show State.step numbers ensuring (.call .done) = some (_, none) from rfl
  have hqueue : ¬ensuring.queued "port" := by
    rintro ⟨change, hmem, -⟩
    cases hmem
  exact ⟨_, hstep, (stored_value_kept ports_keyed hrun).1 (seedPort.entry 1) (.ensured .preserved) 1 _ _ rfl
    (by decide) hqueue (by decide) rfl hstep⟩

/-- The watcher has taken in a new port, and the store has not. An `ensure` puts the old one back. -/
theorem ensure_overwrites_edit : ∃ tr s s' entry, (machine numbers).Run (.primed ports) tr s ∧
    s.running = some (.registering entry (.ensured .preserved)) ∧ entry.id = "port" ∧
    (s.adapter "port").map (·.value) = some 2 ∧ (machine numbers).Step s (.call .done) none s' ∧
    (s'.adapter "port").map (·.value) = some 1 := by
  have hrun := Machine.Run.step (M := machine numbers) (.step .nil
    (show State.step numbers (.primed ports) (.edit (.put (port 2))) = some (_, none) from rfl))
    (show State.step numbers _ (.request (.ensure seedPort)) = some (_, none) from rfl)
  exact ⟨_, _, _, seedPort.entry 1, hrun, rfl, rfl, rfl,
    show State.step numbers _ (.call .done) = some (_, none) from rfl, rfl⟩

end Iii.Configuration
