import Iii.Registry.Update

/-! Operations that are a few updates, and those that change the entry of a function by hand.

`Leads` is closed under sequences of updates. `set_descriptor` is the one that leaves an index behind: it changes
whether the function is auto, and the routed hook's view is made anew only by the change of the function that
follows. -/
namespace Iii.Registry
open Lib
open Iii.Owner (Conn FnKey Flags ObserverState)
open Hooks (ErrorBody)

variable {S : Type} {s s' s'' : State S} {r : Ref} {o u : Observer S} {id : String} {key : FnKey}
  {away : Conn → String → Prop}

theorem awake_congr (h : Awake s) (hsame : Same s s') : Awake s' := by
  unfold Awake
  rw [hsame.find]
  exact h

theorem Sound.congr (h : Sound s away) (hsame : Same s s') : Sound s' away :=
  ⟨h.indexed.congr hsame, awake_congr h.awake hsame⟩

theorem Leads.of_same (hsame : Same s s') (hentry : ∀ f, SameEntry s s' f) (hobserved : s'.observed = s.observed) :
    Leads s s' := by
  refine ⟨hsame.grows, fun away h => h.congr hsame, fun away _ f => .of_same (hentry f) (fun r' _ => ?_) ?_⟩
  · unfold State.isActive
    rw [hsame.heap]
  · rw [hobserved]

/-- What the indexes do not depend on. -/
theorem Leads.aside (hheap : s'.heap = s.heap) (hnext : s'.next = s.next) (hbyId : s'.byId = s.byId)
    (hbyConnection : s'.byConnection = s.byConnection) (hbyTarget : s'.byTarget = s.byTarget)
    (hstateCounts : s'.stateCounts = s.stateCounts) (hbyFunction : s'.byFunction = s.byFunction)
    (hobserved : s'.observed = s.observed) : Leads s s' := by
  have hentry : ∀ f, SameEntry s s' f := fun f => by
    unfold SameEntry
    rw [hbyFunction]
  exact .of_same ⟨hheap, hnext, hbyId, hbyConnection, hbyTarget, hstateCounts, fun f => (hentry f).observersOf⟩ hentry
    hobserved

theorem notify_leads (s : State S) (c : Conn) (message : Message) : Leads s (s.notify c message) :=
  .aside rfl rfl rfl rfl rfl rfl rfl rfl

theorem dispose_leads (s : State S) (r : Ref) (reason : ErrorBody) : Leads s (s.dispose r reason) := by
  refine update_leads (fun flags body hdisposed => ?_) s r
  rw [hdisposed]
  exact hdisposed

theorem fail_leads (s : State S) (r : Ref) (error : ErrorBody) : Leads s (s.fail r error) := by
  refine update_leads (fun flags body hdisposed => ?_) s r
  split <;> exact hdisposed

theorem announce_leads (s : State S) (r : Ref) (owner : Conn) (revision : Nat) :
    Leads s (s.announce r owner revision) := by
  have haside : Leads s { s with announcements := s.announcements + 1 } := .aside rfl rfl rfl rfl rfl rfl rfl rfl
  refine haside.trans (update_leads ?_ _ r)
  exact fun _ _ hdisposed => hdisposed

theorem unobserve_leads (s : State S) (c : Conn) (id : String) : Leads s (s.unobserve c id) := by
  unfold State.unobserve
  split
  · exact .refl s
  · split
    · exact dispose_leads s _ _
    · exact .refl s

theorem connectionClosed_leads (s : State S) (c : Conn) (token : Token) (runtime : Bool) :
    Leads s (s.connectionClosed c token runtime) := by
  unfold State.connectionClosed
  dsimp only
  split
  · exact .refl s
  · have haway : ∀ (s : State S) r,
        Leads s (s.update r fun flags => { flags with observingConnected := false }) := by
      intro s r
      refine update_leads ?_ s r
      exact fun _ _ hdisposed => hdisposed
    refine (Leads.foldl haway (s.owned c) s).trans ?_
    split
    · exact .aside rfl rfl rfl rfl rfl rfl rfl rfl
    · exact .foldl (fun s r => dispose_leads s r _) (s.owned c) _

theorem graceElapsed_leads (s : State S) (c : Conn) : Leads s (s.graceElapsed c) := by
  unfold State.graceElapsed
  split
  · exact .refl s
  · have haside : Leads s { s with departed := Function.update s.departed c none } :=
      .aside rfl rfl rfl rfl rfl rfl rfl rfl
    refine haside.trans (.foldl (fun s r => ?_) _ _)
    split
    · exact dispose_leads s r _
    · exact .refl s

theorem changeObserver_leads (registered acked : Bool) (refused : Ref → Option ErrorBody) (s : State S) (r : Ref) :
    Leads s (State.changeObserver registered acked refused s r) := by
  unfold State.changeObserver
  split
  · exact fail_leads s r _
  · refine update_leads ?_ s r
    exact fun _ _ hdisposed => hdisposed

theorem changeTarget_leads (registered : Bool) (refused : Ref → Option ErrorBody) (s : State S) (id : String) :
    Leads s (State.changeTarget registered refused s id) := by
  unfold State.changeTarget
  split
  · exact .refl s
  · rename_i r _
    split
    · exact fail_leads s r _
    · refine update_leads ?_ s r
      exact fun _ _ hdisposed => hdisposed

theorem observerAck_leads (s : State S) (c : Conn) (key : FnKey) (id : String) (revision : Nat)
    (error : Option ErrorBody) : Leads s (s.observerAck c key id revision error) := by
  unfold State.observerAck
  split
  · exact .refl s
  · rename_i r _
    split
    · refine update_leads (fun flags body hdisposed => ?_) s r
      split <;> exact hdisposed
    · refine update_leads (fun flags body hdisposed => ?_) s r
      split <;> exact hdisposed

theorem ackTimedOut_leads (s : State S) (r : Ref) (generation : Nat) : Leads s (s.ackTimedOut r generation) := by
  refine update_leads (fun flags body hdisposed => ?_) s r
  split <;> exact hdisposed

theorem fired_leads (s : State S) (r : Ref) :
    Leads s ((s.heap r).elim s fun o => s.set r { o with fires := o.fires + 1 }) := by
  cases ho : s.heap r with
  | none => exact .refl s
  | some o =>
    refine ⟨.set ho ⟨rfl, rfl, rfl, rfl, rfl, rfl⟩, fun away hs => ⟨?_, awake_set hs.awake ho rfl⟩,
      fun away hs => follows_set ho rfl⟩
    exact hs.indexed.setFlags ho ⟨rfl, rfl, rfl, rfl, rfl, rfl⟩ rfl rfl fun hlost => hs.indexed.gone r o ho hlost

/-! ### The entry of a function, changed by hand -/

/-- `entryFor` finds the entry, or makes one that lists nobody and is auto, as the function was without it. -/
structure Entered (s s' : State S) (key : FnKey) (e : FunctionEntry) : Prop where
  same : Same s s'
  observed : s'.observed = s.observed
  entry : s'.byFunction key = some e
  observers : e.observers = s.observersOf key
  auto : e.isAuto = s.isAuto key
  others : ∀ f, f ≠ key → s'.byFunction f = s.byFunction f

theorem entryFor_entered (s : State S) (key : FnKey) : Entered s (s.entryFor key).1 key (s.entryFor key).2 := by
  unfold State.entryFor
  cases he : s.byFunction key with
  | some e =>
    refine ⟨⟨rfl, rfl, rfl, rfl, rfl, rfl, fun _ => rfl⟩, rfl, he, (observersOf_of_entry he).symm, ?_, fun _ _ => rfl⟩
    rw [State.isAuto, he]
    rfl
  | none =>
    have hnone : s.observersOf key = [] := by
      unfold State.observersOf
      rw [he]
      rfl
    have hsame : Same s (s.setEntry key (some (.startingAt (s.revisions key)))) := same_setEntry hnone.symm
    refine ⟨⟨rfl, rfl, rfl, rfl, rfl, rfl, hsame.observersOf⟩, rfl, Function.update_self .., hnone.symm, ?_,
      fun f hf => Function.update_of_ne hf _ _⟩
    · rw [State.isAuto, he]
      rfl

theorem Entered.follows_of_ne {e : FunctionEntry} (h : Entered s s' key e) {f : FnKey} (hf : f ≠ key) :
    FollowsAt s s' f := by
  have hentry : SameEntry s s' f := by
    unfold SameEntry
    rw [h.others f hf]
  refine .of_same hentry (fun r' _ => ?_) (by rw [h.observed])
  unfold State.isActive
  rw [h.same.heap]

/-- The view that there is depends on the observers of the function and on whether it is auto. -/
theorem told_congr (hactive : s'.activeOf key = s.activeOf key) (hobserved : s'.observed key = s.observed key)
    (h : Told s key) : Told s' key := by
  unfold Told at h ⊢
  rwa [hactive, hobserved]

theorem shown_congr (hactive : s'.activeOf key = s.activeOf key) (hobserved : s'.observed key = s.observed key)
    (hauto : s'.isAuto key = s.isAuto key) (h : Shown s key) : Shown s' key := by
  unfold Shown at h ⊢
  rwa [hactive, hobserved, hauto]

/-- The entry goes over to `e'`, which lists the same observers. -/
theorem Entered.same_setEntry {e e' : FunctionEntry} (h : Entered s s' key e) (he' : e'.observers = e.observers) :
    Same s (s'.setEntry key (some e')) := by
  refine h.same.trans (Registry.same_setEntry ?_)
  rw [h.same.observersOf, ← h.observers, ← he']
  rfl

theorem Entered.told_setEntry {e e' : FunctionEntry} (h : Entered s s' key e) (he' : e'.observers = e.observers)
    (htold : Told s key) : Told (s'.setEntry key (some e')) key :=
  told_congr (activeOf_congr (h.same_setEntry he') key) (congrFun h.observed key) htold

theorem used_setEntry {e : FunctionEntry} (h : e.isUnused = false) : Used (s.setEntry key (some e)) key := by
  intro e' he'
  change Function.update s.byFunction key (some e) key = some e' at he'
  rw [Function.update_self] at he'
  cases he'
  exact h

/-- A function without an entry shows nothing. -/
theorem Told.shown_of_none (h : Told s key) (hnone : s.byFunction key = none) : Shown s key := by
  have hactive : s.activeOf key = [] := by
    unfold State.activeOf State.observersOf
    rw [hnone]
    rfl
  unfold Shown
  rw [hactive, if_neg fun hshown => hshown.2 rfl]
  rcases h with hobserved | ⟨hne, -⟩
  · exact hobserved
  · exact absurd hactive hne

/-! #### `set_descriptor` -/

theorem setDescriptor_same (s : State S) (key : FnKey) (descriptor : Option Delivery) :
    Same s (s.setDescriptor key descriptor) := by
  unfold State.setDescriptor
  split
  · exact (entryFor_entered s key).same_setEntry rfl
  · split
    · rename_i e he
      refine (same_setEntry ?_).trans (dropEntryIfUnused_same _ key)
      rw [observersOf_of_entry he]
      rfl
    · exact ⟨rfl, rfl, rfl, rfl, rfl, rfl, fun _ => rfl⟩

theorem setDescriptor_observed (s : State S) (key : FnKey) (descriptor : Option Delivery) :
    (s.setDescriptor key descriptor).observed = s.observed := by
  unfold State.setDescriptor
  split
  · exact (entryFor_entered s key).observed
  · split
    · exact dropEntryIfUnused_observed _ key
    · rfl

theorem setDescriptor_told (s : State S) (key f : FnKey) (descriptor : Option Delivery) (h : Told s f) :
    Told (s.setDescriptor key descriptor) f :=
  told_congr (activeOf_congr (setDescriptor_same s key descriptor) f) (by rw [setDescriptor_observed]) h

theorem setDescriptor_used (s : State S) (key : FnKey) (descriptor : Option Delivery) (h : Used s key) :
    Used (s.setDescriptor key descriptor) key := by
  unfold State.setDescriptor
  split
  · refine used_setEntry ?_
    unfold FunctionEntry.isUnused
    rw [Option.isNone_some, Bool.and_false, Bool.false_and]
  · split
    · exact dropEntryIfUnused_used _ key
    · exact h

theorem setDescriptor_follows_of_ne (s : State S) (descriptor : Option Delivery) {f : FnKey} (hf : f ≠ key) :
    FollowsAt s (s.setDescriptor key descriptor) f := by
  unfold State.setDescriptor
  split
  · exact ((entryFor_entered s key).follows_of_ne hf).trans (.setEntry_of_ne hf)
  · split
    · exact (FollowsAt.setEntry_of_ne hf).trans (dropEntryIfUnused_follows _ key f)
    · exact .refl s f

/-! #### `function_registered` -/

theorem Entered.setEntry_leads {e e' : FunctionEntry} (h : Entered s s' key e) (hobservers : e'.observers = e.observers)
    (hauto : e'.isAuto = e.isAuto) (hused : e'.isUnused = false) : Leads s (s'.setEntry key (some e')) := by
  have hsame := h.same_setEntry hobservers
  refine ⟨hsame.grows, fun away hs => hs.congr hsame, fun away _ f => ?_⟩
  by_cases hf : f = key
  · subst hf
    refine ⟨fun _ => used_setEntry hused, h.told_setEntry hobservers, ?_⟩
    refine shown_congr (activeOf_congr hsame f) (congrFun h.observed f) ?_
    rw [isAuto_setEntry, if_pos rfl, ← h.auto, ← hauto]
    rfl
  · exact (h.follows_of_ne hf).trans (.setEntry_of_ne hf)

theorem Entered.drop_leads {e : FunctionEntry} (h : Entered s s' key e) : Leads s (s'.dropEntryIfUnused key) := by
  have hsame := h.same.trans (dropEntryIfUnused_same s' key)
  refine ⟨hsame.grows, fun away hs => hs.congr hsame, fun away _ f => ?_⟩
  by_cases hf : f = key
  · subst hf
    have hobserved : (s'.dropEntryIfUnused f).observed f = s.observed f := by
      rw [dropEntryIfUnused_observed, h.observed]
    have hauto : (s'.dropEntryIfUnused f).isAuto f = s.isAuto f := by
      rw [dropEntryIfUnused_isAuto, ← h.auto, State.isAuto, h.entry]
      rfl
    exact ⟨fun _ => dropEntryIfUnused_used s' f, told_congr (activeOf_congr hsame f) hobserved,
      shown_congr (activeOf_congr hsame f) hobserved hauto⟩
  · exact (h.follows_of_ne hf).trans (dropEntryIfUnused_follows s' key f)

theorem functionRegistered_leads (D : Deps) (s : State S) (worker : Conn) (speaks : Bool) (key : FnKey)
    (localDispatch : Bool) : Leads s (s.functionRegistered D worker speaks key localDispatch) := by
  unfold State.functionRegistered
  split
  · exact .refl s
  · have hentered := entryFor_entered s key
    dsimp only
    split
    · exact hentered.drop_leads
    · refine (hentered.setEntry_leads ?_ ?_ ?_).trans ((Leads.foldl (fun s r => ?_) _ _).trans (notify_leads _ _ _))
      · rfl
      · rfl
      · unfold FunctionEntry.isUnused
        rw [Bool.not_true, Bool.and_false]
      · exact announce_leads s r _ _

/-! #### `on_function_change` -/

theorem changeFunction_sound (D : Deps) (s : State S) (key : FnKey) (registered : Bool)
    (refused : Ref → Option ErrorBody) (h : Sound s away) : Sound (s.changeFunction D key registered refused) away := by
  unfold State.changeFunction
  split
  · exact h
  · rename_i e he
    dsimp only
    refine Sound.congr (Sound.congr ((Leads.foldl (changeObserver_leads registered _ refused) e.observers _).sound away ?_)
      (refreshActive_same _ key)) (dropEntryIfUnused_same _ key)
    refine h.congr (same_setEntry ?_)
    rw [observersOf_of_entry he]
    rfl

theorem changeFunction_grows (D : Deps) (s : State S) (key : FnKey) (registered : Bool)
    (refused : Ref → Option ErrorBody) : Grows s (s.changeFunction D key registered refused) := by
  unfold State.changeFunction
  split
  · exact .refl s
  · rename_i e he
    dsimp only
    refine Grows.trans (Grows.trans (Grows.trans (Same.grows (same_setEntry ?_))
      (Leads.foldl (changeObserver_leads registered _ refused) e.observers _).grows)
      (refreshActive_same _ key).grows) (dropEntryIfUnused_same _ key).grows
    rw [observersOf_of_entry he]
    rfl

theorem changeFunction_follows_of_ne (D : Deps) (s : State S) (registered : Bool) (refused : Ref → Option ErrorBody)
    (h : Sound s away) {f : FnKey} (hf : f ≠ key) : FollowsAt s (s.changeFunction D key registered refused) f := by
  unfold State.changeFunction
  split
  · exact .refl s f
  · rename_i e he
    dsimp only
    refine FollowsAt.trans (FollowsAt.trans (FollowsAt.trans (.setEntry_of_ne hf)
      ((Leads.foldl (changeObserver_leads registered _ refused) e.observers _).follows away ?_ f))
      (refreshActive_follows _ key f)) (dropEntryIfUnused_follows _ key f)
    refine h.congr (same_setEntry ?_)
    rw [observersOf_of_entry he]
    rfl

/-- The function's view is made anew, whatever it was. -/
theorem changeFunction_settles (D : Deps) (s : State S) (key : FnKey) (registered : Bool)
    (refused : Ref → Option ErrorBody) (htold : Told s key) :
    Used (s.changeFunction D key registered refused) key ∧ Shown (s.changeFunction D key registered refused) key := by
  unfold State.changeFunction
  split
  · rename_i hnone
    refine ⟨fun e he => ?_, htold.shown_of_none hnone⟩
    rw [hnone] at he
    cases he
  · exact ⟨dropEntryIfUnused_used _ key, (dropEntryIfUnused_follows _ key key).shown (refreshActive_shown _ key)⟩

theorem changeTargets_leads (s : State S) (key : FnKey) (registered : Bool) (refused : Ref → Option ErrorBody) :
    Leads s ((s.byTarget.values key).foldl (State.changeTarget registered refused) s) :=
  .foldl (changeTarget_leads registered refused) _ s

end Iii.Registry
