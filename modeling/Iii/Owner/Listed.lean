import Iii.Owner.Entries

/-! An observer stays in the entry of its function.

The list of an entry is changed by `attach_to_function`, which adds to it, and by `detach_from_function`, which takes
its own observer out. An entry that lists anyone is not dropped, and one that is not dead is the one in the map, so who
looks the function up finds the observers that were attached. -/
namespace Iii.Entries
open Lib
open Iii.Owner (Conn FnKey Flags)
open Hooks (ErrorBody)

variable {fn : ObserverRef → FnKey} {s s' s'' : State} {t : Task} {a : Act} {news : List Task} {key : FnKey}
  {r : ObserverRef} {e : FunctionEntry} {i : Nat}

/-- An entry that is not dead is the one in the map. -/
def Live (s : State) : Prop := ∀ key i e, s.entry? key i = some e → e.dead = false → s.byFunction key = some i

/-- The entry in the map lists the observer. -/
def Listed (s : State) (key : FnKey) (r : ObserverRef) : Prop :=
  ∃ i e, s.byFunction key = some i ∧ s.entry? key i = some e ∧ r ∈ e.observers

/-- The call takes the observer out of the entry. -/
def Task.detaches (r : ObserverRef) : Task → Prop
  | .detach observer _ => observer = r
  | _ => False

/-- What an action does to the entries that `r` may be in. -/
structure Spares (r : ObserverRef) (s s' : State) : Prop where
  live : Live s → Live s'
  listed : ∀ key, Listed s key r → Listed s' key r

namespace Spares

theorem refl (r : ObserverRef) (s : State) : Spares r s s := ⟨id, fun _ => id⟩

theorem trans (h : Spares r s s') (h' : Spares r s' s'') : Spares r s s'' :=
  ⟨h'.live ∘ h.live, fun key => h'.listed key ∘ h.listed key⟩

/-- The entries stay as they are. -/
theorem aside (hentries : s'.entries = s.entries) (hbyFunction : s'.byFunction = s.byFunction) : Spares r s s' := by
  have hentry : State.entry? s' = State.entry? s := by
    unfold State.entry?
    rw [hentries]
  refine ⟨fun h => ?_, fun key h => ?_⟩
  · unfold Live
    rw [hentry, hbyFunction]
    exact h
  · unfold Listed
    rw [hentry, hbyFunction]
    exact h

theorem entryAt_modify {f : FunctionEntry → FunctionEntry} {key' : FnKey} {j : Nat} {e' : FunctionEntry} :
    State.entry? (s.modify key i f) key' j = some e' ↔
      ∃ e, s.entry? key' j = some e ∧ (if key' = key ∧ i = j then f e else e) = e' := by
  unfold State.entry? State.modify
  dsimp only
  rw [Function.update_apply]
  by_cases hkey : key' = key
  · subst hkey
    rw [if_pos rfl, getElem?_modify_some]
    simp only [true_and]
  · rw [if_neg hkey]
    simp only [hkey, false_and, if_false]
    exact ⟨fun h => ⟨e', h, rfl⟩, fun ⟨_, h, heq⟩ => heq ▸ h⟩

/-- One entry is changed, and none comes back to life. -/
theorem modify {f : FunctionEntry → FunctionEntry}
    (hf : ∀ e, ((f e).dead = false → e.dead = false) ∧ (r ∈ e.observers → r ∈ (f e).observers)) :
    Spares r s (s.modify key i f) := by
  refine ⟨fun h key' j e' he' hlive => ?_, fun key' ⟨j, e, hj, he, hr⟩ => ?_⟩
  · obtain ⟨e, he, rfl⟩ := entryAt_modify.mp he'
    refine h key' j e he ?_
    split at hlive
    · exact (hf e).1 hlive
    · exact hlive
  · refine ⟨j, _, hj, entryAt_modify.mpr ⟨e, he, rfl⟩, ?_⟩
    split
    · exact (hf e).2 hr
    · exact hr

theorem entryFor (key : FnKey) : Spares r s (s.entryFor key).1 := by
  unfold State.entryFor
  cases hfn : s.byFunction key with
  | some i => exact .refl r s
  | none =>
    dsimp only
    have hother : ∀ key' j, key' ≠ key → State.entry?
        { s with
          entries := Function.update s.entries key
            (s.entries key ++ [.startingAt ((Assoc.get? s.revisions key).getD 0)])
          byFunction := Function.update s.byFunction key (some (s.entries key).length)
          revisions := Assoc.erase s.revisions key } key' j = s.entry? key' j := by
      intro key' j hkey
      unfold State.entry?
      dsimp only
      rw [Function.update_of_ne hkey]
    refine ⟨fun h key' j e he hlive => ?_, fun key' ⟨j, e, hj, he, hr⟩ => ?_⟩
    · by_cases hkey : key' = key
      · subst hkey
        change (Function.update s.entries key' _ key')[j]? = some e at he
        show Function.update s.byFunction key' _ key' = some j
        rw [Function.update_self] at he ⊢
        rcases lt_or_ge j (s.entries key').length with hj | hj
        · rw [List.getElem?_append_left hj] at he
          have hnone := h key' j e he hlive
          rw [hfn] at hnone
          cases hnone
        · obtain ⟨hlt, -⟩ := List.getElem?_eq_some_iff.mp he
          rw [List.length_append, List.length_singleton] at hlt
          exact congrArg some (by omega)
      · rw [hother key' j hkey] at he
        exact (Function.update_of_ne hkey _ _).trans (h key' j e he hlive)
    · have hkey : key' ≠ key := by
        rintro rfl
        rw [hfn] at hj
        cases hj
      exact ⟨j, e, (Function.update_of_ne hkey _ _).trans hj, (hother key' j hkey).trans he, hr⟩

/-- What is dropped lists nobody. -/
theorem dropEntryIfUnused (key : FnKey) : Spares r s (s.dropEntryIfUnused key).1 := by
  unfold State.dropEntryIfUnused
  split
  · exact .refl r s
  · rename_i i hfn
    split
    · exact .refl r s
    · rename_i e he
      split
      · rename_i hunused
        dsimp only
        refine ⟨fun h key' j e' he' hlive => ?_, fun key' ⟨j, e', hj, he', hr⟩ => ?_⟩
        · obtain ⟨e₀, he₀, rfl⟩ := entryAt_modify.mp he'
          split at hlive
          · cases hlive
          · rename_i hne
            have hfound := h key' j e₀ he₀ hlive
            have hkey : key' ≠ key := by
              rintro rfl
              exact hne ⟨rfl, Option.some.inj (hfn.symm.trans hfound)⟩
            exact (Function.update_of_ne hkey _ _).trans hfound
        · have hkey : key' ≠ key := by
            rintro rfl
            obtain rfl : i = j := Option.some.inj (hfn.symm.trans hj)
            obtain rfl : e = e' := Option.some.inj (he.symm.trans he')
            simp only [FunctionEntry.isUnused, Bool.and_eq_true, List.isEmpty_iff] at hunused
            rw [hunused.1.1] at hr
            cases hr
          exact ⟨j, _, (Function.update_of_ne hkey _ _).trans hj,
            entryAt_modify.mpr ⟨e', he', if_neg fun hboth => hkey hboth.1⟩, hr⟩
      · exact .refl r s

theorem setFlags (h : Spares r s s') (o : ObserverRef) (change : Flags → Flags) : Spares r s (s'.setFlags o change) :=
  h.trans (.aside rfl rfl)

theorem notify (h : Spares r s s') (w : Conn) (message : Message) : Spares r s (s'.notify w message) :=
  h.trans (.aside rfl rfl)

theorem announce (h : Spares r s s') (o : ObserverRef) (w : Conn) (revision : Nat) :
    Spares r s (s'.announce o w revision) :=
  h.trans (.aside rfl rfl)

theorem announceAll (h : Spares r s s') (observers : List ObserverRef) (w : Conn) (revision : Nat) :
    Spares r s (observers.foldl (fun s o => s.announce o w revision) s') := by
  induction observers generalizing s' with
  | nil => exact h
  | cons o observers ih => exact ih (h.announce o w revision)

end Spares

/-! ### One action -/

theorem spares_attachToFunction (o : ObserverRef) (owner : Option Owner) :
    Spares r s (s.attachToFunction key i e o owner) := by
  unfold State.attachToFunction
  dsimp only
  split
  · refine .setFlags (.modify ?_) _ _
    exact fun e => ⟨id, fun hr => List.mem_append_left _ hr⟩
  · refine .notify (.announce (.modify ?_) _ _ _) _ _
    exact fun e => ⟨id, fun hr => List.mem_append_left _ hr⟩

theorem spares_functionRegistered (w : Conn) (localDispatch : Bool) (owner : Option Owner) :
    Spares r s (s.functionRegistered key i e w localDispatch owner).1 := by
  unfold State.functionRegistered
  dsimp only
  split
  · exact .refl r s
  · refine .notify (.announceAll (.modify ?_) _ _ _) _ _
    exact fun e => ⟨id, id⟩

theorem spares_withdraw (o : ObserverRef) : Spares r s (s.withdraw key i e o) := by
  unfold State.withdraw
  dsimp only
  have hflags := (Spares.refl r s).setFlags o fun flags => { flags with announced := none, rejectedByOwner := false }
  split
  · split
    · exact hflags
    · refine (hflags.trans (.modify ?_)).notify _ _
      exact fun e => ⟨id, id⟩
  · exact hflags

theorem spares_resetObserver (o : ObserverRef) (registered acked : Bool) (error : Option ErrorBody) :
    Spares r s (s.resetObserver o registered acked error) := by
  unfold State.resetObserver
  split
  · exact (Spares.refl r s).setFlags o _
  · exact (Spares.refl r s).setFlags o _

theorem spares_trim (key : FnKey) (revision : Nat) : Spares r s (s.trim key revision) := .aside rfl rfl

theorem step_spares (h : s.step fn t a = some (s', news)) (hdetaches : ¬t.detaches r) : Spares r s s' := by
  unfold State.step at h
  split at h
  · cases h
    exact .entryFor _
  · split at h
    · split at h <;> cases h
      · exact .refl r s
      · refine .modify ?_
        exact fun e => ⟨id, id⟩
    · split at h <;> cases h
      · exact .refl r s
      · exact spares_attachToFunction _ _
    · split at h
      · cases h
        exact .refl r s
      · obtain rfl := congrArg Prod.fst (Option.some.inj h)
        exact spares_functionRegistered _ _ _
    · cases h
  · cases h
    exact .refl r s
  · obtain rfl := congrArg Prod.fst (Option.some.inj h)
    exact .dropEntryIfUnused _
  · cases h
    exact .aside rfl rfl
  · cases h
    exact spares_trim _ _
  · split at h <;> cases h
    · refine .modify ?_
      exact fun e => ⟨id, id⟩
    · exact .refl r s
  · split at h <;> cases h
    · exact .refl r s
    · exact .refl r s
  · cases h
    split
    · exact .refl r s
    · refine .modify ?_
      exact fun e => ⟨id, id⟩
  · cases h
    refine .modify ?_
    exact fun e => ⟨id, id⟩
  · split at h <;> cases h
    exact .refl r s
  · cases h
    exact .refl r s
  · cases h
    exact spares_resetObserver _ _ _ _
  · split at h <;> cases h
    · exact .refl r s
    · exact .refl r s
  · cases h
    refine .modify fun e => ⟨id, fun hr => List.mem_filter.mpr ⟨hr, decide_eq_true ?_⟩⟩
    rintro rfl
    exact hdetaches rfl
  · split at h <;> cases h
    · exact .refl r s
    · exact .refl r s
  · split at h <;> cases h
    exact spares_withdraw _
  · cases h
    exact (Spares.refl r s).setFlags _ _
  · cases h

theorem listed_attachToFunction (he : s.entry? key i = some e) (hfound : s.byFunction key = some i)
    (owner : Option Owner) : Listed (s.attachToFunction key i e r owner) key r := by
  unfold State.attachToFunction
  split
  · exact ⟨i, _, hfound, Spares.entryAt_modify.mpr ⟨e, he, if_pos ⟨rfl, rfl⟩⟩,
      List.mem_append_right _ (List.mem_singleton_self r)⟩
  · exact ⟨i, _, hfound, Spares.entryAt_modify.mpr ⟨e, he, if_pos ⟨rfl, rfl⟩⟩,
      List.mem_append_right _ (List.mem_singleton_self r)⟩

/-- `attach_to_function` looks for the entry again, or lists the observer. -/
theorem step_attach (hlive : Live s) (h : s.step fn (.hold key i (.attachToFunction r)) a = some (s', news)) :
    news = [.find key (.attachToFunction r)] ∨ Listed s' key r := by
  unfold State.step at h
  dsimp only at h
  split at h
  · cases ‹Job.attachToFunction r = .setDescriptor›
  · rename_i e observer tried he hjob
    cases hjob
    split at h
    · cases h
      exact .inl rfl
    · rename_i owner htried
      cases h
      have hnotDead : e.dead = false := by
        by_contra hdead
        rw [if_pos (Bool.not_eq_false _ ▸ hdead)] at htried
        cases htried
      exact .inr (listed_attachToFunction he (hlive key i e he hnotDead) owner)
  · cases ‹Job.attachToFunction r = .functionRegistered _ _›
  · cases h

theorem step_live (hlive : Live s) (h : s.step fn t a = some (s', news)) : Live s' := by
  obtain ⟨r, hr⟩ : ∃ r, ¬t.detaches r := by
    cases t with
    | detach observer i => exact ⟨observer + 1, fun heq => Nat.succ_ne_self observer heq.symm⟩
    | _ => exact ⟨0, fun hfalse => hfalse⟩
  exact (step_spares h hr).live hlive

/-! ### Calls that attach or detach -/

/-- The function and the observer of an `attach_to_function`. -/
def Task.attaches : Task → Option (FnKey × ObserverRef)
  | .find key (.attachToFunction observer) | .hold key _ (.attachToFunction observer) => some (key, observer)
  | _ => none

/-- The observer of a `detach_from_function`. -/
def Task.leaves : Task → Option ObserverRef
  | .detachFromFunction observer | .detach observer _ => some observer
  | _ => none

theorem Task.detaches.leaves (h : t.detaches r) : t.leaves = some r := by
  unfold Task.detaches at h
  split at h
  · rw [← h]
    rfl
  · cases h

/-- `u` comes after `t`, and attaches and detaches nothing that `t` did not. -/
def Task.Follows (t u : Task) : Prop :=
  (u.attaches = none ∨ u.attaches = t.attaches) ∧ (u.leaves = none ∨ u.leaves = t.leaves)

theorem Task.Follows.of_mem {u v : Task} (hu : u ∈ [v]) (h : t.Follows v) : t.Follows u := by
  rwa [List.mem_singleton.mp hu]

theorem functionRegistered_news {w : Conn} {localDispatch : Bool} {owner : Option Owner} {u : Task}
    (hu : u ∈ (s.functionRegistered key i e w localDispatch owner).2) : u = .dropEntryIfUnused key := by
  unfold State.functionRegistered at hu
  split at hu
  · exact List.mem_singleton.mp hu
  · cases hu

theorem dropEntryIfUnused_news {u : Task} (hu : u ∈ (s.dropEntryIfUnused key).2) :
    ∃ revision, u = .keepRevision key revision := by
  unfold State.dropEntryIfUnused at hu
  split at hu
  · cases hu
  · split at hu
    · cases hu
    · split at hu
      · dsimp only at hu
        split at hu
        · exact ⟨_, List.mem_singleton.mp hu⟩
        · cases hu
      · cases hu

theorem step_news (h : s.step fn t a = some (s', news)) {u : Task} (hu : u ∈ news) : t.Follows u := by
  unfold State.step at h
  split at h
  · rename_i key job
    cases h
    refine .of_mem hu ?_
    cases job <;> exact ⟨.inr rfl, .inl rfl⟩
  · split at h
    · split at h <;> cases h
      · exact .of_mem hu ⟨.inl rfl, .inl rfl⟩
      · cases hu
    · split at h <;> cases h
      · exact .of_mem hu ⟨.inr rfl, .inl rfl⟩
      · cases hu
    · split at h
      · cases h
        exact .of_mem hu ⟨.inl rfl, .inl rfl⟩
      · obtain rfl := congrArg Prod.snd (Option.some.inj h)
        obtain rfl := functionRegistered_news hu
        exact ⟨.inl rfl, .inl rfl⟩
    · cases h
  · cases h
    cases hu
  · obtain rfl := congrArg Prod.snd (Option.some.inj h)
    obtain ⟨revision, rfl⟩ := dropEntryIfUnused_news hu
    exact ⟨.inl rfl, .inl rfl⟩
  -- of the others each leaves one call at most, and only `detachFromFunction` leaves one that detaches
  all_goals
    try split at h
    all_goals
      cases h <;> first
        | exact (List.not_mem_nil hu).elim
        | exact .of_mem hu ⟨.inl rfl, .inl rfl⟩
        | exact .of_mem hu ⟨.inl rfl, .inr rfl⟩

/-- `attach_to_function` goes on until it has listed its observer. -/
theorem step_attaches (hlive : Live s) (hattaches : t.attaches = some (key, r))
    (h : s.step fn t a = some (s', news)) : Listed s' key r ∨ ∃ u ∈ news, u.attaches = some (key, r) := by
  unfold Task.attaches at hattaches
  split at hattaches
  · cases hattaches
    cases a <;> cases h
    exact .inr ⟨_, List.mem_singleton_self _, rfl⟩
  · cases hattaches
    rcases step_attach hlive h with rfl | hlisted
    · exact .inr ⟨_, List.mem_singleton_self _, rfl⟩
    · exact .inl hlisted
  · cases hattaches

theorem live_new (flags : ObserverRef → Flags) : Live (.new flags) := nofun

end Iii.Entries
