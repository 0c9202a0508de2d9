import Iii.Registry.Indexed

/-! A change of one observer, and all that follows from it.

`update` is where the six indexes can come apart: between the change of the state and the end of `forget` an observer
that is disposed can still be found. `Halfway` is what holds there. From any sound state to the end of an `update`,
nothing that was right about a function has become wrong (`update_leads`). -/
namespace Iii.Registry
open Lib
open Iii.Owner (Conn FnKey Flags ObserverState)
open Hooks (ErrorBody)

variable {S : Type} {s s' s'' : State S} {r : Ref} {o u : Observer S} {id : String} {key : FnKey}
  {away : Conn → String → Prop}

/-! ### A change of the state of an observer -/

/-- All observers that can be found but the one, which may be disposed. -/
def AwakeBut (s : State S) (r : Ref) : Prop := ∀ id o, s.find id = some o → s.get id ≠ some r → o.state ≠ .disposed

theorem AwakeBut.awake (h : AwakeBut s r) (ho : s.heap r = some o) (hstate : o.state ≠ .disposed) : Awake s := by
  intro id o₁ ho₁
  by_cases hid : s.get id = some r
  · rw [find_eq hid ho] at ho₁
    cases ho₁
    exact hstate
  · exact h id o₁ ho₁ hid

theorem AwakeBut.set (h : AwakeBut s r) (u : Observer S) : AwakeBut (s.set r u) r := by
  intro id o₁ ho₁ hid
  refine h id o₁ ?_ hid
  obtain ⟨r', hr', ho₁⟩ := Option.bind_eq_some_iff.mp ho₁
  have hne : r' ≠ r := fun heq => hid (heq ▸ hr')
  exact find_eq hr' ((Function.update_of_ne hne _ _).symm.trans ho₁)

theorem AwakeBut.congr (h : AwakeBut s r) (hsame : Same s s') : AwakeBut s' r := by
  unfold AwakeBut
  rw [hsame.find, hsame.get]
  exact h

/-- The observer as `forget` and the rest of `update` know it. -/
structure Stays (o u : Observer S) : Prop extends Alike o u where
  connection : u.connection = o.connection
  state : u.state = o.state
  reason : u.reason = o.reason
  disposed : u.flags.disposed = o.flags.disposed

theorem Stays.refl (o : Observer S) : Stays o o := ⟨⟨rfl, rfl, rfl, rfl, rfl, rfl⟩, rfl, rfl, rfl, rfl⟩

theorem Stays.gone (h : Stays o u) (hgone : o.Gone) : u.Gone := by
  obtain ⟨reason, hdisposed, hstate, hreason⟩ := hgone
  exact ⟨reason, h.disposed.trans hdisposed, h.state.trans hstate, h.reason.trans hreason⟩

/-- Between the change of its state and the end of `update`: `o` is the observer with its new state. -/
structure Halfway (s : State S) (r : Ref) (o : Observer S) (away : Conn → String → Prop) : Prop where
  indexed : Indexed s away
  others : AwakeBut s r
  there : ∃ u, s.heap r = some u ∧ Stays o u
  live : s.get o.id = some r

theorem Halfway.congr (h : Halfway s r o away) (hsame : Same s s') : Halfway s' r o away where
  indexed := h.indexed.congr hsame
  others := h.others.congr hsame
  there := by
    rw [hsame.heap]
    exact h.there
  live := by
    rw [hsame.get]
    exact h.live

theorem count_set_same (ho : s.heap r = some o) (hstate : u.state = o.state) (state : ObserverState) :
    (s.set r u).count state = s.count state := by
  unfold State.count State.set
  dsimp only
  refine List.countP_congr fun m _ => ?_
  rw [Function.update_apply]
  split
  · rename_i heq
    rw [heq, ho, Option.any_some, Option.any_some, hstate]
  · rfl

/-- One whose flags change, but not its state. -/
theorem Indexed.setFlags (h : Indexed s away) (ho : s.heap r = some o) (halike : Alike o u)
    (hconnection : u.connection = o.connection) (hstate : u.state = o.state) (hgone : s.get o.id ≠ some r → u.Gone) :
    Indexed (s.set r u) away := by
  refine h.set ho halike hconnection hgone fun state hne => ?_
  rw [count_set_same ho hstate]
  exact h.counts state hne

theorem follows_set (ho : s.heap r = some o) (hstate : (u.state = .active) = (o.state = .active)) (f : FnKey) :
    FollowsAt s (s.set r u) f :=
  .of_same rfl (fun r' _ => isActive_set ho hstate r') rfl

theorem StateCounts.enter_apply {counts : ObserverState → Int} {state state' : ObserverState} (hne : state' ≠ .disposed) :
    enter counts state state' = counts state' + if state = state' then 1 else 0 := by
  unfold enter
  split
  · rename_i heq
    rw [if_neg (heq ▸ hne.symm), add_zero]
  · rw [Function.update_apply]
    by_cases heq : state = state'
    · rw [if_pos heq.symm, if_pos heq, heq]
    · rw [if_neg (Ne.symm heq), if_neg heq, add_zero]

theorem StateCounts.leave_apply {counts : ObserverState → Int} {state state' : ObserverState} (hne : state' ≠ .disposed) :
    leave counts state state' = counts state' - if state = state' then 1 else 0 := by
  unfold leave
  split
  · rename_i heq
    rw [if_neg (heq ▸ hne.symm), sub_zero]
  · rw [Function.update_apply]
    by_cases heq : state = state'
    · rw [if_pos heq.symm, if_pos heq, heq]
    · rw [if_neg (Ne.symm heq), if_neg heq, sub_zero]

theorem transition_halfway (h : Indexed s away) (hawake : Awake s) (ho : s.heap r = some o) (hlive : s.get o.id = some r)
    (flags : Flags) (state : ObserverState) (reason : Option ErrorBody) :
    Halfway (s.transition r o flags state reason) r
      { o with flags := Observer.entering state flags, state := state, reason := reason } away where
  indexed := by
    refine Indexed.congr (s := { s.set r _ with stateCounts := StateCounts.enter (StateCounts.leave s.stateCounts o.state) state })
      (h.set (u := { o with flags := Observer.entering state flags, state := state, reason := reason }) ho
        ⟨rfl, rfl, rfl, rfl, rfl, rfl⟩ rfl (fun hlost => absurd hlive hlost) fun state' hne => ?_)
      ⟨rfl, rfl, rfl, rfl, rfl, rfl, fun _ => rfl⟩
    have hcount := count_set (u := { o with flags := Observer.entering state flags, state := state, reason := reason })
      h ho hlive state'
    have hcounts := h.counts state' hne
    show StateCounts.enter (StateCounts.leave s.stateCounts o.state) state state' = _
    rw [StateCounts.enter_apply hne, StateCounts.leave_apply hne, hcounts]
    have hcount : (_ : Int) = _ := congrArg Nat.cast hcount
    push_cast at hcount
    linarith only [hcount]
  others := (show AwakeBut s r from fun id o₁ ho₁ _ => hawake id o₁ ho₁).set _
  there := ⟨_, Function.update_self .., .refl _⟩
  live := hlive

/-- Elsewhere a transition changes nothing, nor where the observer is active before and after. -/
theorem transition_follows (h : Indexed s away) (ho : s.heap r = some o) (hlive : s.get o.id = some r)
    (flags : Flags) (state : ObserverState) (reason : Option ErrorBody) {f : FnKey}
    (hf : f ≠ o.function ∨ (state = .active) = (o.state = .active)) :
    FollowsAt s (s.transition r o flags state reason) f := by
  refine .of_same rfl (fun r' hr' => ?_) rfl
  rcases hf with hf | hstate
  · have hne : r' ≠ r := by
      rintro rfl
      exact hf ((h.mem_observersOf ho hlive).mp hr')
    unfold State.isActive State.transition State.notify State.set
    dsimp only
    rw [Function.update_of_ne hne]
  · exact isActive_set (u := { o with flags := Observer.entering state flags, state := state, reason := reason })
      ho hstate r'

theorem transition_grows (ho : s.heap r = some o) (flags : Flags) (state : ObserverState) (reason : Option ErrorBody) :
    Grows s (s.transition r o flags state reason) :=
  ⟨le_rfl, (Grows.set (u := { o with flags := Observer.entering state flags, state := state, reason := reason }) ho
    ⟨rfl, rfl, rfl, rfl, rfl, rfl⟩).heap⟩

/-- What `withdraw_from_owner` changes: the observer's flags and the revision. -/
theorem withdrawFromOwner_spec (ho : s.heap r = some o) :
    ∃ u, Stays o u ∧ Same (s.set r u) (s.withdrawFromOwner r o) ∧
      ∀ f, FollowsAt s (s.withdrawFromOwner r o) f := by
  unfold State.withdrawFromOwner
  split
  · refine ⟨o, .refl o, ?_, .refl s⟩
    have hself : s.set r o = s := by
      unfold State.set
      rw [← ho, Function.update_eq_self]
    rw [hself]
    exact ⟨rfl, rfl, rfl, rfl, rfl, rfl, fun _ => rfl⟩
  · rename_i e he
    refine ⟨{ o with flags := { o.flags with announced := none, rejectedByOwner := false } },
      ⟨⟨rfl, rfl, rfl, rfl, rfl, rfl⟩, rfl, rfl, rfl, rfl⟩, ?_⟩
    have hset := follows_set (s := s) (r := r)
      (u := { o with flags := { o.flags with announced := none, rejectedByOwner := false } }) ho rfl
    dsimp only
    split
    · split
      · exact ⟨⟨rfl, rfl, rfl, rfl, rfl, rfl, fun _ => rfl⟩, hset⟩
      · have hparts : ({ e with revision := e.revision + 1 } : FunctionEntry).parts = e.parts := rfl
        have hentry := sameEntry_setEntry he hparts
        exact ⟨⟨rfl, rfl, rfl, rfl, rfl, rfl, fun f => (hentry f).observersOf⟩,
          fun f => (hset f).trans (.of_same (hentry f) (fun _ _ => rfl) rfl)⟩
    · exact ⟨⟨rfl, rfl, rfl, rfl, rfl, rfl, fun _ => rfl⟩, hset⟩

theorem Halfway.withdraw (h : Halfway s r o away) (ho : s.heap r = some o) :
    Halfway (s.withdrawFromOwner r o) r o away := by
  obtain ⟨u, hstays, hsame, -⟩ := withdrawFromOwner_spec ho
  refine Halfway.congr ?_ hsame
  exact
    { indexed := h.indexed.setFlags ho hstays.toAlike hstays.connection hstays.state fun hlost => absurd h.live hlost
      others := h.others.set u
      there := ⟨u, Function.update_self .., hstays⟩
      live := h.live }

/-! ### `forget` -/

theorem forget_follows (s : State S) (r : Ref) (o : Observer S) (f : FnKey) : FollowsAt s (s.forget r o) f := by
  have hdetached := detachFromFunction_follows
    { s with
      byId := if s.get o.id = some r then Assoc.erase s.byId o.id else s.byId
      byConnection := (s.byConnection.take o.connection o.id).dropEmpty o.connection
      byTarget := (s.byTarget.take o.target o.id).dropEmpty o.target } r o.function f
  exact ⟨hdetached.used, hdetached.told, hdetached.shown⟩

theorem get_forget (hlive : s.get o.id = some r) (id : String) :
    (s.forget r o).get id = if o.id = id then none else s.get id := by
  obtain ⟨entry, -, hsame⟩ := detachFromFunction_same
    { s with
      byId := if s.get o.id = some r then Assoc.erase s.byId o.id else s.byId
      byConnection := (s.byConnection.take o.connection o.id).dropEmpty o.connection
      byTarget := (s.byTarget.take o.target o.id).dropEmpty o.target } r o.function
  unfold State.forget
  rw [hsame.get]
  show Assoc.get? (if s.get o.id = some r then _ else _) id = _
  rw [if_pos hlive, Assoc.get?_erase]
  rfl

theorem Halfway.forget (h : Halfway s r o away) (hgone : o.Gone) :
    Indexed (s.forget r o) away ∧ Awake (s.forget r o) := by
  obtain ⟨u, ho, hstays⟩ := h.there
  obtain ⟨entry, hentry, hsame⟩ := detachFromFunction_same
    { s with
      byId := if s.get o.id = some r then Assoc.erase s.byId o.id else s.byId
      byConnection := (s.byConnection.take o.connection o.id).dropEmpty o.connection
      byTarget := (s.byTarget.take o.target o.id).dropEmpty o.target } r o.function
  have hget : ∀ id, (s.forget r o).get id = if o.id = id then none else s.get id := get_forget h.live
  have hheap : (s.forget r o).heap = s.heap := hsame.heap
  have hfind : ∀ {β : Type} (p : Observer S → β) (id : String),
      ((s.forget r o).find id).map p = if o.id = id then none else (s.find id).map p := by
    intro β p id
    unfold State.find
    rw [hget, hheap]
    split <;> rfl
  have hobservers : ∀ f, (s.forget r o).observersOf f =
      if f = o.function then (s.observersOf f).filter (· ≠ r) else s.observersOf f := by
    intro f
    unfold State.forget
    rw [hsame.observersOf, observersOf_setEntry]
    split
    · rename_i heq
      rw [hentry, heq]
      rfl
    · rfl
  have hid : ∀ {id}, s.get id = some r → o.id = id := fun hid => hstays.id.symm.trans (h.indexed.id_eq hid ho)
  have hr : ∀ {β : Type} (p : Observer S → β), (s.find o.id).map p = some (p u) := by
    intro β p
    rw [find_eq h.live ho]
    rfl
  refine ⟨⟨?_, ?_, ?_, ?_, ?_, ?_, ?_, ?_, ?_, ?_⟩, ?_⟩
  · unfold State.forget
    rw [hsame.byId]
    show Assoc.Distinct (if s.get o.id = some r then _ else _)
    rw [if_pos h.live]
    exact Assoc.distinct_erase h.indexed.distinct o.id
  · intro id r' hr'
    rw [hget] at hr'
    rw [hfind]
    split at hr'
    · cases hr'
    · rename_i hne
      rw [if_neg hne]
      exact h.indexed.named id r' hr'
  · intro r' hr'
    rw [hheap] at hr'
    exact (h.indexed.fresh r' hr').trans_eq hsame.next.symm
  · intro r' o₁ ho₁ hlost
    rw [hheap] at ho₁
    by_cases hself : r' = r
    · subst hself
      obtain rfl : u = o₁ := Option.some.inj (ho.symm.trans ho₁)
      exact hstays.gone hgone
    · refine h.indexed.gone r' o₁ ho₁ fun hlive => hlost ?_
      rw [hget, if_neg, hlive]
      intro heq
      rw [← heq, h.live] at hlive
      exact hself (Option.some.inj hlive).symm
  · intro c id
    rw [hfind]
    unfold State.forget
    rw [hsame.byConnection]
    show id ∈ Multimap.values (Multimap.dropEmpty _ _) c ↔ _
    rw [Multimap.values_dropEmpty, Multimap.mem_take, h.indexed.connection]
    split
    · rename_i heq
      subst heq
      rw [hr, hstays.connection]
      constructor
      · rintro ⟨⟨hc, -⟩, hne⟩
        exact absurd ⟨(Option.some.inj hc).symm, rfl⟩ hne
      · rintro ⟨hnone, -⟩
        cases hnone
    · rename_i hne
      exact ⟨fun hid => hid.1, fun hid => ⟨hid, fun heq => hne heq.2.symm⟩⟩
  · intro t id
    rw [hfind]
    unfold State.forget
    rw [hsame.byTarget]
    show id ∈ Multimap.values (Multimap.dropEmpty _ _) t ↔ _
    rw [Multimap.values_dropEmpty, Multimap.mem_take, h.indexed.target]
    split
    · rename_i heq
      subst heq
      rw [hr, hstays.target]
      constructor
      · rintro ⟨ht, hne⟩
        exact absurd ⟨(Option.some.inj ht).symm, rfl⟩ hne
      · intro hnone
        cases hnone
    · rename_i hne
      exact ⟨fun hid => hid.1, fun hid => ⟨hid, fun heq => hne heq.2.symm⟩⟩
  · unfold State.forget
    rw [hsame.byConnection, hsame.byTarget]
    exact ⟨h.indexed.tidy.1.takeOut _ _, h.indexed.tidy.2.takeOut _ _⟩
  · intro f r'
    rw [hobservers]
    simp only [hget, hfind]
    have hmem := h.indexed.function f r'
    have hlisted := h.indexed.mem_observersOf ho (hstays.id ▸ h.live) (f := f)
    constructor
    · intro hr'
      have hother : r' ∈ s.observersOf f ∧ r' ≠ r := by
        split at hr'
        · exact ⟨(List.mem_filter.mp hr').1, of_decide_eq_true (List.mem_filter.mp hr').2⟩
        · rename_i hf
          refine ⟨hr', ?_⟩
          rintro rfl
          exact hf ((hlisted.mp hr').trans hstays.function)
      obtain ⟨id, hid', hf⟩ := hmem.mp hother.1
      have hne : o.id ≠ id := by
        rintro rfl
        exact hother.2 (Option.some.inj (hid'.symm.trans h.live))
      exact ⟨id, by rw [if_neg hne, hid'], by rw [if_neg hne, hf]⟩
    · rintro ⟨id, hid', hf⟩
      split at hid'
      · cases hid'
      · rename_i hne
        rw [if_neg hne] at hf
        have hr' := hmem.mpr ⟨id, hid', hf⟩
        split
        · refine List.mem_filter.mpr ⟨hr', decide_eq_true ?_⟩
          rintro rfl
          exact hne (hid hid')
        · exact hr'
  · intro f
    rw [hobservers]
    split
    · exact (h.indexed.nodup f).filter _
    · exact h.indexed.nodup f
  · intro state hne
    have hcounts := h.indexed.counts state hne
    have hcount : (s.forget r o).count state = s.count state := by
      obtain ⟨reason, -, hdisposed, -⟩ := hstays.gone hgone
      unfold State.count
      rw [hheap]
      unfold State.forget
      rw [hsame.byId]
      show List.countP _ (if s.get o.id = some r then _ else _) = _
      rw [if_pos h.live, (Assoc.perm_erase h.indexed.distinct h.live).countP_eq, List.countP_cons, ho, Option.any_some,
        hdisposed, decide_eq_false (Ne.symm hne)]
      rfl
    rw [hcount]
    unfold State.forget
    rw [hsame.stateCounts]
    exact hcounts
  · intro id o₁ ho₁
    obtain ⟨r', hr', ho₁⟩ := Option.bind_eq_some_iff.mp ho₁
    rw [hget] at hr'
    rw [hheap] at ho₁
    split at hr'
    · cases hr'
    · rename_i hne
      refine h.others id o₁ (find_eq hr' ho₁) fun heq => hne (hid heq)

/-! ### `update` -/

/-- A change that does not take a disposal back. -/
def Lasting (change : Flags → Flags) : Prop :=
  ∀ flags reason, flags.disposed = some reason → (change flags).disposed = some reason

structure Sound (s : State S) (away : Conn → String → Prop) : Prop where
  indexed : Indexed s away
  awake : Awake s

/-- From a sound state to a sound state, with nothing wrong about any function that was not before. -/
structure Leads (s s' : State S) : Prop where
  grows : Grows s s'
  sound : ∀ away, Sound s away → Sound s' away
  follows : ∀ away, Sound s away → ∀ f, FollowsAt s s' f

theorem Leads.refl (s : State S) : Leads s s := ⟨.refl s, fun _ h => h, fun _ _ => .refl s⟩

theorem Leads.trans (h : Leads s s') (h' : Leads s' s'') : Leads s s'' where
  grows := h.grows.trans h'.grows
  sound := fun away hs => h'.sound away (h.sound away hs)
  follows := fun away hs f => (h.follows away hs f).trans (h'.follows away (h.sound away hs) f)

theorem Leads.foldl {α : Type} {step : State S → α → State S} (h : ∀ s a, Leads s (step s a)) (l : List α) (s : State S) :
    Leads s (l.foldl step s) := by
  induction l generalizing s with
  | nil => exact .refl s
  | cons a l ih => exact (h s a).trans (ih (step s a))

theorem derive_of_disposed {flags : Flags} {reason : ErrorBody} (h : flags.disposed = some reason) :
    o.derive flags = (.disposed, some reason) := by
  unfold Observer.derive Flags.derive
  rw [h]

theorem disposed_of_derive {flags : Flags} {reason : Option ErrorBody} (h : o.derive flags = (.disposed, reason)) :
    ∃ body, flags.disposed = some body ∧ reason = some body := by
  unfold Observer.derive Flags.derive at h
  split at h
  · rename_i body hdisposed
    cases h
    exact ⟨body, hdisposed, rfl⟩
  · cases h
  · repeat' split at h
    all_goals cases h

theorem forget_grows (s : State S) (r : Ref) (o : Observer S) : Grows s (s.forget r o) := by
  obtain ⟨entry, -, hsame⟩ := detachFromFunction_same
    { s with
      byId := if s.get o.id = some r then Assoc.erase s.byId o.id else s.byId
      byConnection := (s.byConnection.take o.connection o.id).dropEmpty o.connection
      byTarget := (s.byTarget.take o.target o.id).dropEmpty o.target } r o.function
  exact ⟨hsame.next.ge, fun r' o₁ ho₁ => ⟨o₁, (congrFun hsame.heap r').trans ho₁, rfl, rfl, rfl, rfl, rfl, rfl⟩⟩

theorem followUp_grows (ho : s.heap r = some o) (wasActive : Bool) : Grows s (s.followUp r o wasActive) := by
  unfold State.followUp
  dsimp only
  have hwithdraw : Grows s (if o.state = .disposed ∨ o.state = .error then s.withdrawFromOwner r o else s) := by
    split
    · obtain ⟨u, hstays, hsame, -⟩ := withdrawFromOwner_spec ho
      exact (Grows.set ho hstays.toAlike).trans hsame.grows
    · exact .refl s
  refine hwithdraw.trans ?_
  generalize (if o.state = .disposed ∨ o.state = .error then s.withdrawFromOwner r o else s) = s₁
  have hrefresh : Grows s₁ (if wasActive ≠ decide (o.state = .active) then s₁.refreshActive o.function else s₁) := by
    split
    · exact (refreshActive_same s₁ o.function).grows
    · exact .refl s₁
  refine hrefresh.trans ?_
  generalize (if wasActive ≠ decide (o.state = .active) then s₁.refreshActive o.function else s₁) = s₂
  split
  · exact forget_grows s₂ r o
  · exact .refl s₂

theorem followUp_follows (ho : s.heap r = some o) (wasActive : Bool) (f : FnKey) :
    FollowsAt s (s.followUp r o wasActive) f := by
  unfold State.followUp
  dsimp only
  have hwithdraw : FollowsAt s (if o.state = .disposed ∨ o.state = .error then s.withdrawFromOwner r o else s) f := by
    split
    · exact (withdrawFromOwner_spec ho).choose_spec.2.2 f
    · exact .refl s f
  refine hwithdraw.trans ?_
  generalize (if o.state = .disposed ∨ o.state = .error then s.withdrawFromOwner r o else s) = s₁
  have hrefresh : FollowsAt s₁ (if wasActive ≠ decide (o.state = .active) then s₁.refreshActive o.function else s₁) f := by
    split
    · exact refreshActive_follows s₁ o.function f
    · exact .refl s₁ f
  refine hrefresh.trans ?_
  generalize (if wasActive ≠ decide (o.state = .active) then s₁.refreshActive o.function else s₁) = s₂
  split
  · exact forget_follows s₂ r o f
  · exact .refl s₂ f

/-- Where it becomes active, or no longer is, the routed hook's view is made anew. -/
theorem followUp_shown (s : State S) (r : Ref) (wasActive : Bool) (h : wasActive ≠ decide (o.state = .active)) :
    Shown (s.followUp r o wasActive) o.function := by
  unfold State.followUp
  dsimp only
  generalize (if o.state = .disposed ∨ o.state = .error then s.withdrawFromOwner r o else s) = s₁
  rw [if_pos h]
  have hshown := refreshActive_shown s₁ o.function
  split
  · exact (forget_follows _ r o o.function).shown hshown
  · exact hshown

theorem Halfway.followUp (h : Halfway s r o away) (ho : s.heap r = some o) (hgone : o.state = .disposed → o.Gone)
    (wasActive : Bool) : Sound (s.followUp r o wasActive) away := by
  unfold State.followUp
  dsimp only
  have hwithdraw : Halfway (if o.state = .disposed ∨ o.state = .error then s.withdrawFromOwner r o else s) r o away := by
    split
    · exact h.withdraw ho
    · exact h
  generalize (if o.state = .disposed ∨ o.state = .error then s.withdrawFromOwner r o else s) = s₁ at hwithdraw ⊢
  have hrefresh : Halfway (if wasActive ≠ decide (o.state = .active) then s₁.refreshActive o.function else s₁) r o
      away := by
    split
    · exact hwithdraw.congr (refreshActive_same s₁ o.function)
    · exact hwithdraw
  generalize (if wasActive ≠ decide (o.state = .active) then s₁.refreshActive o.function else s₁) = s₂ at hrefresh ⊢
  split
  · rename_i hdisposed
    exact ⟨(hrefresh.forget (hgone hdisposed)).1, (hrefresh.forget (hgone hdisposed)).2⟩
  · rename_i hstate
    obtain ⟨u, hu, hstays⟩ := hrefresh.there
    exact ⟨hrefresh.indexed, hrefresh.others.awake hu (hstays.state ▸ hstate)⟩

/-- An observer that cannot be found does not change any more. -/
theorem Indexed.live_of_change (h : Indexed s away) (ho : s.heap r = some o) {flags : Flags}
    (hlasting : ∀ reason, o.flags.disposed = some reason → flags.disposed = some reason)
    (hchange : ¬((o.derive flags).1 = o.state ∧ (o.derive flags).2.map (·.code) = o.reason.map (·.code))) :
    s.get o.id = some r := by
  by_contra hlost
  obtain ⟨reason, hdisposed, hstate, hreason⟩ := h.gone r o ho hlost
  apply hchange
  rw [derive_of_disposed (hlasting reason hdisposed), hstate, hreason]
  exact ⟨rfl, rfl⟩

theorem gone_of_derive {flags : Flags} {reason : Option ErrorBody} (h : o.derive flags = (.disposed, reason)) :
    ({ o with flags := Observer.entering .disposed flags, state := .disposed, reason := reason } : Observer S).Gone := by
  obtain ⟨body, hdisposed, hreason⟩ := disposed_of_derive h
  exact ⟨body, hdisposed, rfl, hreason⟩

theorem update_leads {change : Flags → Flags} (hchange : Lasting change) (s : State S) (r : Ref) :
    Leads s (s.update r change) := by
  unfold State.update
  cases ho : s.heap r with
  | none => exact .refl s
  | some o =>
    dsimp only
    obtain ⟨state, reason, hderive⟩ : ∃ state reason, o.derive (change o.flags) = (state, reason) := ⟨_, _, rfl⟩
    rw [hderive]
    dsimp only
    split
    · rename_i hsame
      refine ⟨.set ho ⟨rfl, rfl, rfl, rfl, rfl, rfl⟩, fun away hs => ⟨?_, awake_set hs.awake ho rfl⟩,
        fun away hs => follows_set ho rfl⟩
      refine hs.indexed.setFlags ho ⟨rfl, rfl, rfl, rfl, rfl, rfl⟩ rfl rfl fun hlost => ?_
      obtain ⟨body, hdisposed, hstate, hreason⟩ := hs.indexed.gone r o ho hlost
      exact ⟨body, hchange o.flags body hdisposed, hstate, hreason⟩
    · rename_i hdiffers
      have hlive : ∀ away, Sound s away → s.get o.id = some r := fun away hs =>
        hs.indexed.live_of_change ho (hchange o.flags) (by rw [hderive]; exact hdiffers)
      have hnew : (s.transition r o (change o.flags) state reason).heap r =
          some { o with flags := Observer.entering state (change o.flags), state := state, reason := reason } :=
        Function.update_self ..
      refine ⟨(transition_grows ho _ _ _).trans (followUp_grows hnew _), fun away hs => ?_, fun away hs f => ?_⟩
      · refine (transition_halfway hs.indexed hs.awake ho (hlive away hs) _ _ _).followUp hnew ?_ _
        rintro rfl
        exact gone_of_derive hderive
      · have hfollows := followUp_follows hnew (decide (o.state = .active)) f
        by_cases hf : f ≠ o.function ∨ (state = .active) = (o.state = .active)
        · exact (transition_follows hs.indexed ho (hlive away hs) _ _ _ hf).trans hfollows
        · rw [not_or, not_not] at hf
          obtain ⟨rfl, hactive⟩ := hf
          have hshown := followUp_shown (s.transition r o (change o.flags) state reason) r
            (o := { o with flags := Observer.entering state (change o.flags), state := state, reason := reason })
            (decide (o.state = .active)) (by
              intro heq
              exact hactive (propext (decide_eq_decide.mp heq).symm))
          exact ⟨fun hused => hfollows.used hused, fun _ => hshown.told, fun _ => hshown⟩

end Iii.Registry
