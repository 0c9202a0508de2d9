import Iii.Registry.Place

/-! The six indexes agree after any operations.

`step_cases` is the only look at the operations one by one. What it leaves to a run is the time between a
`set_descriptor` and the change of the function (`awaits`), in which the routed hook's view may not be the one the
function should have. -/
namespace Iii.Registry
open Lib
open Iii.Owner (Conn FnKey Flags ObserverState)
open Hooks (ErrorBody)

variable {S : Type} {s s' s'' : State S} {r : Ref} {o u : Observer S} {id : String} {key : FnKey}
  {away : Conn → String → Prop}

/-! ### Any operations -/

/-- Whether a new descriptor of the function still waits for the change of the function that it announces. -/
def awaitsAfter (f : FnKey) (awaits : Bool) (a : Deps × Op S) : Bool :=
  match a.2 with
  | .setDescriptor key _ => awaits || key = f
  | .onFunctionChange key _ _ _ => awaits && key ≠ f
  | _ => awaits

def awaits (f : FnKey) (acts : List (Deps × Op S)) : Bool := acts.foldl (awaitsAfter f) false

/-- What holds of a function, which may wait for a change. -/
structure Settled (s : State S) (f : FnKey) (awaits : Bool) : Prop where
  used : Used s f
  told : Told s f
  shown : awaits = false → Shown s f

theorem Settled.follows {f : FnKey} {awaits : Bool} (h : Settled s f awaits) (hfollows : FollowsAt s s' f) :
    Settled s' f awaits :=
  ⟨hfollows.used h.used, hfollows.told h.told, fun hawaits => hfollows.shown (h.shown hawaits)⟩

theorem onFunctionChange_sound (D : Deps) (hs : Sound s Nobody) (key : FnKey) (registered : Bool)
    (refused refusedTarget : Ref → Option ErrorBody) :
    Sound (s.onFunctionChange D key registered refused refusedTarget) Nobody :=
  (changeTargets_leads _ key registered refusedTarget).sound Nobody (changeFunction_sound D s key registered refused hs)

theorem onFunctionChange_settled (D : Deps) (hs : Sound s Nobody) (key : FnKey) (registered : Bool)
    (refused refusedTarget : Ref → Option ErrorBody) {f : FnKey} {awaits : Bool} (h : Settled s f awaits) :
    Settled (s.onFunctionChange D key registered refused refusedTarget) f (awaits && key ≠ f) := by
  have hfollows := (changeTargets_leads (s.changeFunction D key registered refused) key registered refusedTarget).follows
    Nobody (changeFunction_sound D s key registered refused hs) f
  by_cases hf : f = key
  · subst hf
    obtain ⟨hused, hshown⟩ := changeFunction_settles D s f registered refused h.told
    exact Settled.follows ⟨hused, hshown.told, fun _ => hshown⟩ hfollows
  · rw [decide_eq_true (Ne.symm hf), Bool.and_true]
    exact (h.follows (changeFunction_follows_of_ne D s registered refused hs hf)).follows hfollows

theorem setDescriptor_settled (s : State S) (key : FnKey) (descriptor : Option Delivery) {f : FnKey} {awaits : Bool}
    (h : Settled s f awaits) : Settled (s.setDescriptor key descriptor) f (awaits || key = f) := by
  by_cases hf : f = key
  · subst hf
    refine ⟨setDescriptor_used s f descriptor h.used, setDescriptor_told s f f descriptor h.told, fun hawaits => ?_⟩
    simp at hawaits
  · rw [decide_eq_false (Ne.symm hf), Bool.or_false]
    exact h.follows (setDescriptor_follows_of_ne s descriptor hf)

variable [DecidableEq S]

/-- Most operations keep whatever is right about any function. -/
theorem step_cases (hs : Sound s Nobody) (a : Deps × Op S) :
    (Keeps s (s.step a) ∧ ∀ f awaits, awaitsAfter f awaits a = awaits) ∨
      (∃ key registered refused refusedTarget, a.2 = .onFunctionChange key registered refused refusedTarget) ∨
      ∃ key descriptor, a.2 = .setDescriptor key descriptor := by
  obtain ⟨D, op⟩ := a
  cases op with
  | observe c R tombstone checked after closing =>
    exact .inl ⟨observe_keeps D hs c R tombstone checked after closing, fun _ _ => rfl⟩
  | unobserve c id => exact .inl ⟨(unobserve_leads s c id).keeps hs, fun _ _ => rfl⟩
  | dispose r reason => exact .inl ⟨(dispose_leads s r reason).keeps hs, fun _ _ => rfl⟩
  | fail r error => exact .inl ⟨(fail_leads s r error).keeps hs, fun _ _ => rfl⟩
  | fired r => exact .inl ⟨(fired_leads s r).keeps hs, fun _ _ => rfl⟩
  | connectionClosed c token runtime =>
    exact .inl ⟨(connectionClosed_leads s c token runtime).keeps hs, fun _ _ => rfl⟩
  | graceElapsed c => exact .inl ⟨(graceElapsed_leads s c).keeps hs, fun _ _ => rfl⟩
  | reattach previous token c => exact .inl ⟨reattach_keeps hs previous token c, fun _ _ => rfl⟩
  | onFunctionChange key registered refused refusedTarget => exact .inr (.inl ⟨_, _, _, _, rfl⟩)
  | functionRegistered worker speaks key localDispatch =>
    exact .inl ⟨(functionRegistered_leads D s worker speaks key localDispatch).keeps hs, fun _ _ => rfl⟩
  | observerAck c key id revision error =>
    exact .inl ⟨(observerAck_leads s c key id revision error).keeps hs, fun _ _ => rfl⟩
  | ackTimedOut r generation => exact .inl ⟨(ackTimedOut_leads s r generation).keeps hs, fun _ _ => rfl⟩
  | setDescriptor key descriptor => exact .inr (.inr ⟨_, _, rfl⟩)
  | setConfig config =>
    have hleads : Leads s { s with config := config } := .aside rfl rfl rfl rfl rfl rfl rfl rfl
    exact .inl ⟨hleads.keeps hs, fun _ _ => rfl⟩

theorem step_grows (hs : Sound s Nobody) (a : Deps × Op S) : Grows s (s.step a) := by
  obtain ⟨hkeeps, -⟩ | ⟨key, registered, refused, refusedTarget, ha⟩ | ⟨key, descriptor, ha⟩ := step_cases hs a
  · exact hkeeps.grows
  · unfold State.step
    rw [ha]
    exact (changeFunction_grows a.1 s key registered refused).trans
      (changeTargets_leads _ key registered refusedTarget).grows
  · unfold State.step
    rw [ha]
    exact (setDescriptor_same s key descriptor).grows

theorem step_sound (hs : Sound s Nobody) (a : Deps × Op S) : Sound (s.step a) Nobody := by
  obtain ⟨hkeeps, -⟩ | ⟨key, registered, refused, refusedTarget, ha⟩ | ⟨key, descriptor, ha⟩ := step_cases hs a
  · exact hkeeps.sound
  · unfold State.step
    rw [ha]
    exact onFunctionChange_sound a.1 hs key registered refused refusedTarget
  · unfold State.step
    rw [ha]
    exact hs.congr (setDescriptor_same s key descriptor)

theorem step_settled (hs : Sound s Nobody) (a : Deps × Op S) {f : FnKey} {awaits : Bool} (h : Settled s f awaits) :
    Settled (s.step a) f (awaitsAfter f awaits a) := by
  obtain ⟨hkeeps, hawaits⟩ | ⟨key, registered, refused, refusedTarget, ha⟩ | ⟨key, descriptor, ha⟩ := step_cases hs a
  · rw [hawaits]
    exact h.follows (hkeeps.follows f)
  · unfold State.step awaitsAfter
    rw [ha]
    exact onFunctionChange_settled a.1 hs key registered refused refusedTarget h
  · unfold State.step awaitsAfter
    rw [ha]
    exact setDescriptor_settled s key descriptor h

omit [DecidableEq S] in
theorem sound_new (config : ObserversConfig) : Sound (State.new config : State S) Nobody := by
  have hget : ∀ id, (State.new config : State S).get id = none := fun _ => rfl
  have hfind : ∀ id, (State.new config : State S).find id = none := fun _ => rfl
  have hheap : ∀ r, (State.new config : State S).heap r = none := fun _ => rfl
  refine ⟨⟨List.nodup_nil, ?_, ?_, ?_, fun c id => ?_, fun t id => ?_, ⟨.empty, .empty⟩, fun f r => ?_, fun _ => .nil,
    fun _ _ => rfl⟩, fun id o ho => ?_⟩
  · intro id r hid
    rw [hget] at hid
    cases hid
  · intro r hr
    rw [hheap] at hr
    cases hr
  · intro r o ho
    rw [hheap] at ho
    cases ho
  · rw [hfind]
    exact ⟨fun hid => absurd hid List.not_mem_nil, fun hid => nomatch hid.1⟩
  · rw [hfind]
    exact ⟨fun hid => absurd hid List.not_mem_nil, nofun⟩
  · refine ⟨fun hr => absurd hr List.not_mem_nil, ?_⟩
    rintro ⟨id, hid, -⟩
    rw [hget] at hid
    cases hid
  · rw [hfind] at ho
    cases ho

theorem Sound.run (hs : Sound s Nobody) (acts : List (Deps × Op S)) : Grows s (s.run acts) ∧ Sound (s.run acts) Nobody := by
  induction acts generalizing s with
  | nil => exact ⟨.refl s, hs⟩
  | cons a acts ih =>
    obtain ⟨hgrows, hsound⟩ := ih (step_sound hs a)
    exact ⟨(step_grows hs a).trans hgrows, hsound⟩

theorem run_sound (config : ObserversConfig) (acts : List (Deps × Op S)) :
    Sound ((State.new config : State S).run acts) Nobody := ((sound_new config).run acts).2

theorem run_settled (config : ObserversConfig) (acts : List (Deps × Op S)) (f : FnKey) :
    Settled ((State.new config : State S).run acts) f (awaits f acts) := by
  induction acts using List.reverseRecOn with
  | nil => exact ⟨nofun, .inl rfl, fun _ => rfl⟩
  | append_singleton acts a ih =>
    have hs := run_sound config acts
    unfold State.run at ih hs ⊢
    unfold awaits at ih ⊢
    rw [List.foldl_concat, List.foldl_concat]
    exact step_settled hs a ih

/-- What the indexes other than the routed hook's view say. -/
structure Agrees (s : State S) : Prop where
  live : ∀ id r, s.get id = some r → ∃ o, s.heap r = some o ∧ o.id = id ∧ o.state ≠ .disposed
  connection : ∀ c id, id ∈ s.byConnection.values c ↔ ∃ o, s.find id = some o ∧ o.connection = c
  target : ∀ t id, id ∈ s.byTarget.values t ↔ ∃ o, s.find id = some o ∧ o.target = t
  function : ∀ f r, (s.observersOf f).count r = 1 ↔ ∃ id o, s.get id = some r ∧ s.find id = some o ∧ o.function = f
  once : ∀ f r, (s.observersOf f).count r ≤ 1
  counts : ∀ state, StateCounts.get s.stateCounts state = s.count state
  tidy : s.byConnection.Tidy ∧ s.byTarget.Tidy
  used : ∀ f, Used s f
  told : ∀ f l, s.observed f = some l → l ≠ [] ∧ l = s.activeOf f

omit [DecidableEq S] in
theorem Sound.count_disposed (h : Sound s away) : s.count .disposed = 0 := by
  unfold State.count
  rw [List.countP_eq_zero]
  intro m hm hdisposed
  obtain ⟨o, ho, hstate⟩ := Option.any_eq_true _ _ |>.mp hdisposed
  exact h.awake m.1 o (find_eq (Assoc.get?_of_mem h.indexed.distinct hm) ho) (of_decide_eq_true hstate)

/-- After any operations all indexes agree, and the routed hook's view of a function lists its active observers: if
there is one at all, and there is, exactly for an auto function with active observers, unless a new descriptor still
waits for the change it announces. -/
theorem run_agrees (config : ObserversConfig) (acts : List (Deps × Op S)) :
    Agrees ((State.new config : State S).run acts) ∧
      ∀ f, awaits f acts = false → Shown ((State.new config : State S).run acts) f := by
  have hs := run_sound config acts
  have hsettled := run_settled config acts
  generalize (State.new config : State S).run acts = s at hs hsettled ⊢
  refine ⟨⟨fun id r hid => ?_, fun c id => ?_, fun t id => ?_, fun f r => ?_, fun f r => ?_, fun state => ?_,
    hs.indexed.tidy, fun f => (hsettled f).used, fun f l hl => ?_⟩, fun f => (hsettled f).shown⟩
  · obtain ⟨o, ho, hname⟩ := Option.map_eq_some_iff.mp (hs.indexed.named id r hid)
    obtain ⟨r', hr', hheap⟩ := Option.bind_eq_some_iff.mp ho
    obtain rfl : r = r' := Option.some.inj (hid.symm.trans hr')
    exact ⟨o, hheap, hname, hs.awake id o ho⟩
  · rw [hs.indexed.connection, Option.map_eq_some_iff]
    exact ⟨fun hc => hc.1, fun hc => ⟨hc, fun hnobody => hnobody⟩⟩
  · rw [hs.indexed.target, Option.map_eq_some_iff]
  · have hfunction := hs.indexed.function f r
    simp only [Option.map_eq_some_iff] at hfunction
    have hcount : (s.observersOf f).count r = 1 ↔ r ∈ s.observersOf f :=
      ⟨fun hone => List.count_pos_iff.mp (hone ▸ Nat.one_pos), List.count_eq_one_of_mem (hs.indexed.nodup f)⟩
    rw [hcount, hfunction]
    exact exists_congr fun id => exists_and_left.symm
  · exact List.nodup_iff_count_le_one.mp (hs.indexed.nodup f) r
  · unfold StateCounts.get
    split
    · rename_i heq
      rw [heq, hs.count_disposed]
      rfl
    · rename_i hne
      exact hs.indexed.counts state hne
  · rcases (hsettled f).told with hnone | ⟨hne, hsome⟩
    · rw [hnone] at hl
      cases hl
    · rw [hsome] at hl
      cases hl
      exact ⟨hne, rfl⟩

/-! #### An auto function, observed, whose descriptor then says that its owner delivers -/

def orders : FnKey := ("default", "orders::create")

def hosted : Deps := ⟨fun _ => true, fun _ => none⟩

def observeOrders : Deps × Op Unit :=
  (hosted, .observe 1 ⟨"o", fun _ => (), none, none, none⟩ none (.ok ⟨orders, ("default", "log"), []⟩) hosted none)

def describeOrders : Deps × Op Unit := (hosted, .setDescriptor orders (some .owner))

def ordersRegistered : Deps × Op Unit := (hosted, .onFunctionChange orders true (fun _ => none) fun _ => none)

theorem described_unshown :
    ((State.new ⟨4, 4, 1, 4⟩).run [observeOrders, describeOrders]).observed orders = some [0] ∧
      ((State.new ⟨4, 4, 1, 4⟩).run [observeOrders, describeOrders]).isAuto orders = false ∧
      ¬Shown ((State.new ⟨4, 4, 1, 4⟩).run [observeOrders, describeOrders]) orders := by
  unfold Shown
  decide

theorem registered_shown :
    Shown ((State.new ⟨4, 4, 1, 4⟩).run [observeOrders, describeOrders, ordersRegistered]) orders :=
  (run_agrees ⟨4, 4, 1, 4⟩ [observeOrders, describeOrders, ordersRegistered]).2 orders (by decide)

end Iii.Registry
