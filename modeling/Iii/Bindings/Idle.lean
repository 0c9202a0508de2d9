import Iii.Bindings.Safe

/-! With nothing running, every binding is in its place.

A token in `failing` is the token of some task: whatever takes one leaves a task that has it,
and whatever drops that task puts the binding back first. So with no task left `failing` is
empty, and what a registration asked for is live or parked. -/
namespace Iii.Bindings
open Lib

/-- What a step does to the tokens in flight: those it leaves are of the tasks it leaves, or of
the tasks that are not its own. -/
def Covers (r : Registry) (t : Task) (r' : Registry) (news : List Task) : Prop :=
  ∀ id x', r'.failing id = some x' → (∃ u ∈ news, Holds r' u id) ∨
    ∃ x, r.failing id = some x ∧ x.token = x'.token ∧
      ∀ o, t.operation = some o → o.id = id → o.token ≠ x.token

namespace Covers
variable {r r' : Registry} {t : Task} {news : List Task}

/-- A task without a token writes nothing to `failing`. -/
theorem reads (hop : t.operation = none) (h : r'.failing = r.failing) : Covers r t r' news := by
  intro id x' hx'
  rw [h] at hx'
  exact .inr ⟨x', hx', rfl, by simp [hop]⟩

/-- A task whose token another operation has overridden. -/
theorem overridden {o : Operation} (hop : t.operation = some o) (hcurrent : r.isCurrent o.id o.token = false)
    (h : r'.failing = r.failing) : Covers r t r' news := by
  intro id x' hx'
  rw [h] at hx'
  refine .inr ⟨x', hx', rfl, ?_⟩
  rintro o' ho' rfl htoken
  obtain rfl := Option.some.inj (hop.symm.trans ho')
  have htrue := isCurrent_iff.mpr ⟨x', hx', htoken.symm⟩
  rw [hcurrent] at htrue
  cases htrue

/-- The task goes on with its token. -/
theorem goesOn {o : Operation} {u : Task} (hop : t.operation = some o) (hu : u ∈ news)
    (huop : ∃ o', u.operation = some o' ∧ o'.id = o.id ∧ o'.token = o.token)
    (h : ∀ id x', r'.failing id = some x' → ∃ x, r.failing id = some x ∧ x.token = x'.token) :
    Covers r t r' news := by
  intro id x' hx'
  obtain ⟨o', ho', hid, htoken⟩ := huop
  obtain ⟨x, hx, hxtoken⟩ := h id x' hx'
  by_cases hmine : o.id = id ∧ o.token = x.token
  · exact .inl ⟨u, hu, o', x', ho', hid.trans hmine.1, hx', (htoken.trans (hmine.2.trans hxtoken)).symm⟩
  · refine .inr ⟨x, hx, hxtoken, fun o'' ho'' hid'' htoken'' => ?_⟩
    obtain rfl := Option.some.inj (hop.symm.trans ho'')
    exact hmine ⟨hid'', htoken''⟩

/-- The entry of one id goes. It is the task's own, if the task has one. -/
theorem drop {id : String} (hop : ∀ o, t.operation = some o → o.id = id)
    (h : r'.failing = Function.update r.failing id none) : Covers r t r' news := by
  intro j x' hx'
  rw [h, Function.update_apply] at hx'
  split at hx'
  · cases hx'
  · rename_i hj
    exact .inr ⟨x', hx', rfl, fun o ho hid => absurd (hid.symm.trans (hop o ho)) hj⟩

/-- A token is taken, and a task has it. -/
theorem begun {target : Trigger} {removing : Bool} {r₁ : Registry} {u : Task}
    (hop : ∀ o, t.operation = some o → o.id = target.id) (hu : u ∈ news)
    (huop : u.operation = some ⟨target.id, r₁.tokens + 1, removing, target⟩)
    (hfailing : ∀ id, id ≠ target.id → r₁.failing id = r.failing id) :
    Covers r t (r₁.beginTransition target removing) news := by
  intro id x' hx'
  by_cases hid : id = target.id
  · subst hid
    refine .inl ⟨u, hu, _, x', huop, rfl, hx', ?_⟩
    simp only [Registry.beginTransition, Function.update_self] at hx'
    rw [← Option.some.inj hx']
  · simp only [Registry.beginTransition, Function.update_of_ne hid] at hx'
    rw [hfailing id hid] at hx'
    exact .inr ⟨x', hx', rfl, fun o ho hoid => absurd (hoid.symm.trans (hop o ho)) hid⟩

end Covers

/-! ### Steps -/

variable {r : Registry} {news : List Task}

theorem go_covers {r' : Registry} {t : Task} (hk : Knows r t) (hgo : r.go t = some (r', news)) :
    Covers r t r' news := by
  by_cases hlooks : t.looks = true
  · obtain ⟨rfl, -⟩ := go_looks hlooks hgo
    refine .reads ?_ rfl
    cases t <;> first | rfl | cases hlooks
  cases t with
  | park t =>
    simp only [Registry.go] at hgo
    split at hgo <;> cases hgo
    all_goals exact .drop (by simp [Task.operation]) rfl
  | claim id key gen =>
    simp only [Registry.go] at hgo
    split at hgo
    · cases hgo
      exact .reads rfl rfl
    · rename_i r'' t hclaim
      cases hgo
      unfold Registry.claimParked at hclaim
      split at hclaim
      · cases hclaim
      · obtain ⟨parked, -, hr⟩ := Option.map_eq_some_iff.mp hclaim
        cases hr
        exact .begun (by simp [Task.operation]) (List.mem_singleton_self _) rfl fun j hj => rfl
  | registerType key w =>
    simp only [Registry.go] at hgo
    cases hgo
    exact .reads rfl rfl
  | rehome id key gen =>
    simp only [Registry.go] at hgo
    split at hgo
    · cases hgo
      exact .reads rfl rfl
    · split at hgo <;> cases hgo
      · exact .begun (by simp [Task.operation]) (List.mem_singleton_self _) rfl fun j hj => rfl
      · exact .reads rfl rfl
  | rehomeOld source target token gen =>
    simp only [Registry.go] at hgo
    split at hgo <;> cases hgo
    all_goals
      exact .goesOn rfl (List.mem_singleton_self _) ⟨_, rfl, rfl, rfl⟩ fun _ x hx => ⟨x, hx, rfl⟩
  | rehomeCurrent source target token gen old =>
    have hid : source.id = target.id := hk.sourceId _ _ rfl rfl
    simp only [Registry.go] at hgo
    split at hgo <;> cases hgo
    · exact .goesOn rfl (List.mem_singleton_self _) ⟨_, rfl, rfl, rfl⟩ fun _ x hx => ⟨x, hx, rfl⟩
    · rename_i hcurrent
      exact .overridden rfl (by simpa [hid] using hcurrent) rfl
  | failOver t token =>
    simp only [Registry.go] at hgo
    split at hgo
    · rename_i hcurrent
      cases hgo
      exact .overridden rfl (by simpa using hcurrent) rfl
    · rename_i hcurrent
      split at hgo
      · rename_i hnone
        simp [Registry.isCurrent, hnone] at hcurrent
      · rename_i x hx
        have hretarget (u : Trigger) (id : String) (x' : Transition)
            (hx' : Function.update r.failing t.id (some { x with target := u }) id = some x') :
            ∃ x, r.failing id = some x ∧ x.token = x'.token := by
          rw [Function.update_apply] at hx'
          split at hx'
          · rename_i hid
            cases hx'
            exact ⟨x, hid ▸ hx, rfl⟩
          · exact ⟨x', hx', rfl⟩
        split at hgo <;> cases hgo
        all_goals exact .goesOn rfl (List.mem_singleton_self _) ⟨_, rfl, rfl, rfl⟩ (hretarget _)
  | failOverLook t token =>
    simp only [Registry.go] at hgo
    split at hgo <;> cases hgo
    all_goals
      exact .goesOn rfl (List.mem_singleton_self _) ⟨_, rfl, rfl, rfl⟩ fun _ x hx => ⟨x, hx, rfl⟩
  | failOverPark t token =>
    simp only [Registry.go] at hgo
    split at hgo <;> cases hgo
    · exact .drop (by rintro o ⟨⟩; rfl) rfl
    · rename_i hcurrent
      exact .overridden rfl (by simpa using hcurrent) rfl
  | unregister id =>
    simp only [Registry.go] at hgo
    split at hgo <;> cases hgo
    · exact .drop (by simp [Task.operation]) rfl
    · exact .begun (by simp [Task.operation]) (List.mem_singleton_self _) rfl fun j hj => rfl
  | removeLook t token edition =>
    simp only [Registry.go] at hgo
    split at hgo <;> cases hgo
    all_goals
      exact .goesOn rfl (List.mem_singleton_self _) ⟨_, rfl, rfl, rfl⟩ fun _ x hx => ⟨x, hx, rfl⟩
  | removeDone t token edition =>
    simp only [Registry.go] at hgo
    split at hgo <;> cases hgo
    · exact .drop (by rintro o ⟨⟩; rfl) rfl
    · rename_i hcurrent
      exact .overridden rfl (by simpa using hcurrent) rfl
  | leave w =>
    simp only [Registry.go] at hgo
    cases hgo
    intro id x' hx'
    exact .inr ⟨x', (Option.filter_eq_some_iff.mp hx').1, rfl, by simp [Task.operation]⟩
  | leaveLoop w ids keys =>
    cases ids with
    | nil =>
      simp only [Registry.go] at hgo
      cases hgo
      exact .reads rfl rfl
    | cons id ids =>
      simp only [Registry.go] at hgo
      split at hgo
      · split at hgo <;> cases hgo
        · exact .drop (by simp [Task.operation]) rfl
        · exact .reads rfl rfl
      · cases hgo
        exact .reads rfl rfl
  | leaveRest w keys =>
    simp only [Registry.go] at hgo
    cases hgo
    exact .reads rfl rfl
  | leaveKeys w keys =>
    cases keys with
    | nil =>
      simp only [Registry.go] at hgo
      cases hgo
      exact .reads rfl rfl
    | cons key keys => simp only [Registry.go] at hgo; cases hgo
  | reject id reporter =>
    simp only [Registry.go] at hgo
    split at hgo <;> cases hgo
    · exact .reads rfl rfl
    · split
      · exact .reads rfl rfl
      · exact .drop (by simp [Task.operation]) rfl
  | matching key => simp only [Registry.go] at hgo; cases hgo
  | drain key gen => simp only [Registry.go] at hgo; cases hgo
  | scan key gen => simp only [Registry.go] at hgo; cases hgo
  | takeType key w => simp only [Registry.go] at hgo; cases hgo
  | leaveTypes w => simp only [Registry.go] at hgo; cases hgo
  | leaveIds w keys => simp only [Registry.go] at hgo; cases hgo
  | await call after => simp only [Registry.go] at hgo; cases hgo
  | _ => exact absurd rfl hlooks

theorem recoverRemoval_covers {t : Task} {o : Operation} (gen : Nat) (hop : t.operation = some o)
    (hid : ∀ u, (r.triggers o.id).or (r.pending o.id) = some u → u.id = o.id) :
    Covers r t (r.recoverRemoval o.id o.token gen).1 (r.recoverRemoval o.id o.token gen).2 := by
  have hmine (o' : Operation) (ho' : t.operation = some o') : o'.id = o.id := by
    rw [Option.some.inj (ho'.symm.trans hop)]
  unfold Registry.recoverRemoval
  split
  · rename_i hcurrent
    exact .overridden hop (by simpa using hcurrent) rfl
  · split
    · exact .drop hmine rfl
    · dsimp only
      split
      · exact .drop hmine rfl
      · rename_i u hu
        have huid := hid u hu
        split
        · exact .drop hmine rfl
        · exact .begun (fun o' ho' => (hmine o' ho').trans huid.symm) (List.mem_singleton_self _) rfl
            fun j hj => Function.update_of_ne (huid ▸ hj) _ _

theorem answer_covers {call : Call} {after : After} (a : Answer) (h : Sound r)
    (hk : Knows r (.await call after)) :
    Covers r (.await call after) (r.answer call a after).1 (r.answer call a after).2 := by
  cases after with
  | register =>
    cases a with
    | ok => exact .drop (by simp [Task.operation]) rfl
    | rejected => exact .reads rfl rfl
    | unavailable => exact .drop (by simp [Task.operation]) rfl
  | detach t => exact .reads rfl rfl
  | replay => exact .reads rfl rfl
  | leave w ids keys => exact .reads rfl rfl
  | reconcile stale before =>
    simp only [Registry.answer]
    refine .reads rfl ?_
    split
    · rfl
    · split <;> split <;> rfl
  | activate token =>
    simp only [Registry.answer]
    cases hcurrent : r.isCurrent call.trigger.id token with
    | false => exact .overridden rfl hcurrent rfl
    | true =>
      refine .drop (by rintro o ⟨⟩; rfl) ?_
      split <;> rfl
  | rehomeDetach target token gen =>
    have hid : call.trigger.id = target.id := hk.sourceId _ _ rfl rfl
    cases a with
    | ok => exact .goesOn rfl (List.mem_singleton_self _) ⟨_, rfl, rfl, rfl⟩ fun _ x hx => ⟨x, hx, rfl⟩
    | _ =>
      simp only [Registry.answer, hid]
      split
      · exact .drop (by rintro o ⟨⟩; rfl) rfl
      · rename_i hcurrent
        exact .overridden rfl (by simpa using hcurrent) rfl
  | rehome source token old =>
    simp only [Registry.answer]
    split
    · refine .drop (by rintro o ⟨⟩; rfl) ?_
      split <;> rfl
    · rename_i hcurrent
      exact .overridden rfl (by simpa using hcurrent) rfl
  | failOver token =>
    simp only [Registry.answer]
    split
    · refine .drop (by rintro o ⟨⟩; rfl) ?_
      split <;> rfl
    · rename_i hcurrent
      exact .overridden rfl (by simpa using hcurrent) rfl
  | remove token edition =>
    cases a with
    | ok =>
      simp only [Registry.answer]
      split
      · exact .drop (by rintro o ⟨⟩; rfl) rfl
      · rename_i hcurrent
        exact .overridden rfl (by simpa using hcurrent) rfl
    | _ => exact recoverRemoval_covers (o := ⟨call.trigger.id, token, true, call.trigger⟩) _ rfl (h.bindingId _)

theorem recoverActivation_covers {t : Task} {o : Operation} (moved : Bool) (hop : t.operation = some o) :
    Covers r t (r.recoverActivation o.id o.token moved) news := by
  have hmine (o' : Operation) (ho' : t.operation = some o') : o'.id = o.id := by
    rw [Option.some.inj (ho'.symm.trans hop)]
  unfold Registry.recoverActivation
  split
  · rename_i hnone
    exact .overridden hop (by simp [Registry.isCurrent, hnone]) rfl
  · rename_i x hx
    split
    · rename_i hne
      exact .overridden hop (by simpa [Registry.isCurrent, hx] using hne) rfl
    · refine .drop hmine ?_
      cases moved
      · rfl
      · simp only [if_true]
        split <;> rfl

theorem abandon_covers {call : Call} {after : After} (h : Sound r)
    (hafter : ∀ stale before, after ≠ .reconcile stale before) :
    Covers r (.await call after) (r.abandon call after).1 (r.abandon call after).2 := by
  cases after with
  | activate token => exact recoverActivation_covers (o := ⟨_, token, _, _⟩) _ rfl
  | failOver token => exact recoverActivation_covers (o := ⟨_, token, _, _⟩) _ rfl
  | rehomeDetach target token gen => exact recoverActivation_covers (o := ⟨_, token, _, _⟩) _ rfl
  | rehome source token old => exact recoverActivation_covers (o := ⟨_, token, _, _⟩) _ rfl
  | remove token edition =>
    exact recoverRemoval_covers (o := ⟨call.trigger.id, token, true, call.trigger⟩) _ rfl (h.bindingId _)
  | reconcile stale before => exact absurd rfl (hafter _ _)
  | _ => exact .reads rfl rfl

theorem claimOrphans_holds (orphans : List Trigger) (r : Registry) (hnodup : (orphans.map Trigger.id).Nodup)
    (id : String) (x' : Transition) (hx' : (r.claimOrphans orphans).1.failing id = some x') :
    (∃ u ∈ (r.claimOrphans orphans).2, Holds (r.claimOrphans orphans).1 u id) ∨ r.failing id = some x' := by
  induction orphans generalizing r with
  | nil => exact .inr hx'
  | cons t orphans ih =>
    obtain ⟨hnew, hnodup⟩ := List.nodup_cons.mp hnodup
    rcases ih _ hnodup hx' with ⟨u, hu, hholds⟩ | hbegun
    · exact .inl ⟨u, List.mem_cons_of_mem _ hu, hholds⟩
    · simp only [Registry.beginTransition, Function.update_apply] at hbegun
      split at hbegun
      · rename_i hid
        cases hbegun
        exact .inl ⟨_, List.mem_cons_self .., _, _, rfl, hid.symm, hx', rfl⟩
      · exact .inr hbegun

theorem takes_covers {r' : Registry} {key : TypeKey} {w : Worker} {t : Task} {more : List Task}
    (hop : t.operation = none) (ht : Takes r key w r' news) : Covers r t r' (news ++ more) := by
  cases ht with
  | other _ => exact .reads hop rfl
  | own orphans hp hw horphans hnodup =>
    intro id x' hx'
    rcases claimOrphans_holds orphans _ hnodup id x' hx' with ⟨u, hu, hholds⟩ | hx
    · exact .inl ⟨u, List.mem_append_left _ hu, hholds⟩
    · exact .inr ⟨x', hx, rfl, by simp [hop]⟩

theorem exec_covers {r' : Registry} {t : Task} {a : Act} (h : Sound r) (hk : Knows r t)
    (he : Exec r t a r' news) : Covers r t r' news := by
  cases he with
  | go hgo => exact go_covers hk hgo
  | snapshot hs => cases hs <;> exact .reads rfl rfl
  | takeType ht =>
    rw [← List.append_nil news]
    exact takes_covers rfl ht
  | leaveKeys ht => exact takes_covers rfl ht
  | @taken call after htaken =>
    cases hop : (Task.await call after).operation with
    | none => exact .reads hop rfl
    | some o =>
      refine .goesOn hop (List.mem_singleton_self _) ⟨o, ?_, rfl, rfl⟩ fun _ x hx => ⟨x, hx, rfl⟩
      cases after <;> exact hop
  | answer a hok => exact answer_covers a h hk
  | recheck htaken => exact .reads rfl rfl
  | cancel hafter => exact abandon_covers h hafter
  | dropped hd =>
    refine .reads ?_ rfl
    cases t <;> first | rfl | cases hd

/-! ### Every run -/

theorem covered : pool.Covered Sound Knows (fun r id => r.failing id = none) Holds where
  exec := fun {r t a r' news id} h hk he hid => by
    cases hx' : r'.failing id with
    | none => exact .inl rfl
    | some x' =>
      refine .inr ?_
      rcases exec_covers h hk he id x' hx' with hnews | ⟨x, hx, -, hother⟩
      · exact hnews
      · rcases hid with hnone | ⟨o, y, ho, hoid, hy, htoken⟩
        · rw [hx] at hnone
          cases hnone
        · obtain rfl := Option.some.inj (hx.symm.trans hy)
          exact absurd htoken.symm (hother o ho hoid)
  stable := fun {r t a r' news u id} h hk _ he hholds => by
    cases hx' : r'.failing id with
    | none => exact .inl rfl
    | some x' =>
      refine .inr ?_
      rcases exec_covers h hk he id x' hx' with hnews | ⟨x, hx, htoken, -⟩
      · exact .inr hnews
      · obtain ⟨o, y, ho, hoid, hy, hytoken⟩ := hholds
        obtain rfl := Option.some.inj (hx.symm.trans hy)
        exact .inl ⟨o, x', ho, hoid, hx', htoken.symm.trans hytoken⟩

/-- Whatever the operations, the answers and the callers that are dropped: a binding is live or
parked and not both, nothing is left in `failing` once every task has ended, and then what the
last registration of an id asked for, which no unregister and no disconnect took back, is in
exactly one of the two maps. -/
theorem bindings_kept {c : Config Registry Task} (hc : (pool.system .empty).Reachable c) (id : String) :
    ((c.state.triggers id).isSome → c.state.pending id = none) ∧
      (c.tasks = 0 → c.state.failing id = none ∧
        ∀ e, c.state.expected id = some e →
          (∃ t, c.state.triggers id = some t ∧ c.state.pending id = none ∧ t.asked = e) ∨
            (∃ t, c.state.pending id = some t ∧ c.state.triggers id = none ∧ t.asked = e)) := by
  obtain ⟨hsound, -⟩ := kept.reachable .empty hc
  refine ⟨fun hlive => ?_, fun hidle => ?_⟩
  · obtain ⟨t, ht⟩ := Option.isSome_iff_exists.mp hlive
    exact hsound.disjoint id t ht
  · have hfailing : c.state.failing id = none := by
      rcases covered.reachable kept .empty (fun _ => rfl) hc id with hnone | ⟨t, ht, -⟩
      · exact hnone
      · rw [hidle] at ht
        cases Multiset.notMem_zero t ht
    refine ⟨hfailing, fun e he => ?_⟩
    have hbinding := hsound.kept id e he
    unfold Registry.binding at hbinding
    split at hbinding
    · rename_i t ht
      exact .inl ⟨t, ht, hsound.disjoint id t ht, Option.some.inj hbinding⟩
    · rename_i hnone
      split at hbinding
      · rename_i t ht
        exact .inr ⟨t, ht, hnone, Option.some.inj hbinding⟩
      · rw [hfailing] at hbinding
        cases hbinding

/-- A binding of the default namespace. -/
def nightly : Trigger where
  id := "nightly"
  triggerType := "cron"
  content := "report"
  worker := some 1
  triggerNamespace := none
  homeNamespace := defaultNamespace
  providerNamespace := defaultNamespace

/-- A registration that finds no provider parks its binding. -/
theorem nightly_parks {ts : Multiset Task} {c : Config Registry Task}
    (h : Relation.ReflTransGen pool.Step ⟨Registry.park .empty nightly, .resolveHome nightly true ::ₘ ts⟩ c) :
    Relation.ReflTransGen pool.Step ⟨.empty, ts⟩ c := by
  refine Pool.run_start (P := pool) (t := .resolveHome nightly false) rfl ?_
  refine Pool.run_next (P := pool) (u := .resolveFallback nightly false) (Exec.go rfl) ?_
  refine Pool.run_next (P := pool) (u := .park nightly) (Exec.go rfl) ?_
  exact Pool.run_next (P := pool) (Exec.go rfl) h

/-- It looks once more, and returns. -/
theorem nightly_returns (r : Registry) (h : r.types = fun _ => none) :
    Relation.ReflTransGen pool.Step ⟨r, {.resolveHome nightly true}⟩ ⟨r, 0⟩ := by
  have hhome : pool.Exec r (.resolveHome nightly true) .go r [.resolveFallback nightly true] :=
    Exec.go (by simp [Registry.go, nightly, h])
  have hfallback : pool.Exec r (.resolveFallback nightly true) .go r [] :=
    Exec.go (by simp [Registry.go, Registry.unresolved, h])
  exact Pool.run_next hhome (Pool.run_end hfallback .refl)

theorem bindings_kept_parked :
    ((Registry.park .empty nightly).triggers "nightly").isSome = false ∧
      ∃ t, (Registry.park .empty nightly).pending "nightly" = some t ∧ t.asked = nightly.asked := by
  have hrun : (pool.system .empty).Reachable ⟨Registry.park .empty nightly, 0⟩ :=
    ⟨⟨.empty, 0⟩, rfl, nightly_parks (nightly_returns _ rfl)⟩
  obtain ⟨-, hidle⟩ := bindings_kept hrun "nightly"
  obtain ⟨-, hkept⟩ := hidle rfl
  rcases hkept nightly.asked rfl with ⟨t, ht, -⟩ | ⟨t, ht, -, hasked⟩
  · cases ht
  · exact ⟨rfl, t, ht, hasked⟩

/-- An unregister that returns while the registration is still to return, and after it has parked
the binding: the registration returns last, and the binding is in neither map. -/
theorem registration_returns_last : ∃ parked gone : Registry,
    (pool.system .empty).Reachable ⟨parked, {.unregister "nightly", .resolveHome nightly true}⟩ ∧
      pool.Step ⟨parked, {.unregister "nightly", .resolveHome nightly true}⟩ ⟨gone, {.resolveHome nightly true}⟩ ∧
      Relation.ReflTransGen pool.Step ⟨gone, {.resolveHome nightly true}⟩ ⟨gone, 0⟩ ∧
      parked.pending "nightly" = some nightly ∧ gone.triggers "nightly" = none ∧
      gone.pending "nightly" = none := by
  have hgone : pool.Exec (Registry.park .empty nightly) (.unregister "nightly") .go
      (((Registry.park .empty nightly).interruptFailover "nightly").dropPending "nightly" |>.noteUnregistered "nightly" 1)
      [] := Exec.go rfl
  refine ⟨Registry.park .empty nightly, _, ⟨⟨.empty, 0⟩, rfl, nightly_parks ?_⟩,
    .exec {.resolveHome nightly true} hgone, nightly_returns _ rfl, rfl, rfl, rfl⟩
  exact Pool.run_start (P := pool) (t := .unregister "nightly") rfl .refl

end Iii.Bindings
