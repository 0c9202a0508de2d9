import Iii.Registry.Operations
import Mathlib.Tactic.Linarith

/-! What the six indexes say, and how a change of one observer keeps them in step.

`Indexed` is about the observers that can be found by id: it says of each other index what it holds of them. `Shown`
says of the routed hook's view of a function that it is the one `refresh_active` would make now, `Told` only that it
lists the active observers if there is a view at all: that is what is left between a new descriptor and the change of
the function that it announces. -/
namespace Iii.Registry
open Lib
open Iii.Owner (Conn FnKey Flags ObserverState)
open Hooks (ErrorBody)

variable {S : Type} {s s' s'' : State S} {r : Ref} {o u : Observer S} {id : String} {key : FnKey}
  {away : Conn → String → Prop}

namespace State

/-- The observer with the id. -/
def find (s : State S) (id : String) : Option (Observer S) := (s.get id).bind s.heap

def observersOf (s : State S) (key : FnKey) : List Ref := (s.byFunction key).elim [] (·.observers)

def activeOf (s : State S) (key : FnKey) : List Ref := (s.observersOf key).filter s.isActive

def isAuto (s : State S) (key : FnKey) : Bool := (s.byFunction key).all (·.isAuto)

/-- The observers in a state. -/
def count (s : State S) (state : ObserverState) : Nat := s.byId.countP fun m => (s.heap m.2).any (·.state = state)

end State

/-- Disposed for good. -/
def Observer.Gone (o : Observer S) : Prop :=
  ∃ reason, o.flags.disposed = some reason ∧ o.state = .disposed ∧ o.reason = some reason

/-- `away` are the observers that `reattach` has yet to put under their new connection. -/
structure Indexed (s : State S) (away : Conn → String → Prop) : Prop where
  distinct : Assoc.Distinct s.byId
  named : ∀ id r, s.get id = some r → (s.find id).map (·.id) = some id
  fresh : ∀ r, (s.heap r).isSome → r < s.next
  gone : ∀ r o, s.heap r = some o → s.get o.id ≠ some r → o.Gone
  connection : ∀ c id, id ∈ s.byConnection.values c ↔ (s.find id).map (·.connection) = some c ∧ ¬away c id
  target : ∀ t id, id ∈ s.byTarget.values t ↔ (s.find id).map (·.target) = some t
  tidy : s.byConnection.Tidy ∧ s.byTarget.Tidy
  function : ∀ f r, r ∈ s.observersOf f ↔ ∃ id, s.get id = some r ∧ (s.find id).map (·.function) = some f
  nodup : ∀ f, (s.observersOf f).Nodup
  counts : ∀ state, state ≠ .disposed → s.stateCounts state = s.count state

/-- No observer that can be found is disposed. -/
def Awake (s : State S) : Prop := ∀ id o, s.find id = some o → o.state ≠ .disposed

/-- The entry of the function, if it has one, is there for something. -/
def Used (s : State S) (key : FnKey) : Prop := ∀ e, s.byFunction key = some e → e.isUnused = false

/-- The routed hook's view is the one that `refresh_active` would make. -/
def Shown (s : State S) (key : FnKey) : Prop :=
  s.observed key = if s.isAuto key ∧ s.activeOf key ≠ [] then some (s.activeOf key) else none

def Told (s : State S) (key : FnKey) : Prop :=
  s.observed key = none ∨ s.activeOf key ≠ [] ∧ s.observed key = some (s.activeOf key)

theorem Shown.told (h : Shown s key) : Told s key := by
  unfold Shown at h
  split at h
  · rename_i hshown
    exact .inr ⟨hshown.2, h⟩
  · exact .inl h

/-- What is right about a function stays right. -/
structure FollowsAt (s s' : State S) (key : FnKey) : Prop where
  used : Used s key → Used s' key
  told : Told s key → Told s' key
  shown : Shown s key → Shown s' key

theorem FollowsAt.refl (s : State S) (key : FnKey) : FollowsAt s s key := ⟨id, id, id⟩

theorem FollowsAt.trans (h : FollowsAt s s' key) (h' : FollowsAt s' s'' key) : FollowsAt s s'' key :=
  ⟨h'.used ∘ h.used, h'.told ∘ h.told, h'.shown ∘ h.shown⟩

/-- What an observer was made with. -/
structure Alike (o u : Observer S) : Prop where
  id : u.id = o.id
  function : u.function = o.function
  target : u.target = o.target
  spec : u.spec = o.spec
  policy : u.policy = o.policy
  warnings : u.warnings = o.warnings

/-- The observers that were made stay what they were made as. -/
structure Grows (s s' : State S) : Prop where
  next : s.next ≤ s'.next
  heap : ∀ r o, s.heap r = some o → ∃ u, s'.heap r = some u ∧ Alike o u

theorem Grows.refl (s : State S) : Grows s s := ⟨le_rfl, fun _ o ho => ⟨o, ho, ⟨rfl, rfl, rfl, rfl, rfl, rfl⟩⟩⟩

theorem Grows.trans (h : Grows s s') (h' : Grows s' s'') : Grows s s'' where
  next := h.next.trans h'.next
  heap := by
    intro r o ho
    obtain ⟨o₁, ho₁, halike₁⟩ := h.heap r o ho
    obtain ⟨o₂, ho₂, halike₂⟩ := h'.heap r o₁ ho₁
    refine ⟨o₂, ho₂, ?_, ?_, ?_, ?_, ?_, ?_⟩
    · exact halike₂.id.trans halike₁.id
    · exact halike₂.function.trans halike₁.function
    · exact halike₂.target.trans halike₁.target
    · exact halike₂.spec.trans halike₁.spec
    · exact halike₂.policy.trans halike₁.policy
    · exact halike₂.warnings.trans halike₁.warnings

/-! ### What does not matter -/

/-- The parts of an entry that the indexes depend on. -/
def FunctionEntry.parts (e : FunctionEntry) : Option Delivery × List Ref × Bool := (e.descriptor, e.observers, e.announced)

/-- The entries of the function are the same but for what its owner was told. -/
def SameEntry (s s' : State S) (key : FnKey) : Prop :=
  (s'.byFunction key).map FunctionEntry.parts = (s.byFunction key).map FunctionEntry.parts

theorem SameEntry.observersOf (h : SameEntry s s' key) : s'.observersOf key = s.observersOf key := by
  unfold SameEntry at h
  unfold State.observersOf
  cases he : s.byFunction key <;> cases he' : s'.byFunction key <;> simp_all [FunctionEntry.parts]

theorem SameEntry.isAuto (h : SameEntry s s' key) : s'.isAuto key = s.isAuto key := by
  unfold SameEntry at h
  unfold State.isAuto
  cases he : s.byFunction key <;> cases he' : s'.byFunction key <;>
    simp_all [FunctionEntry.parts, FunctionEntry.isAuto]

theorem SameEntry.used (h : SameEntry s s' key) (hused : Used s key) : Used s' key := by
  unfold SameEntry at h
  intro e' he'
  rw [he'] at h
  obtain ⟨e, he, hparts⟩ := Option.map_eq_some_iff.mp h.symm
  have hunused := hused e he
  simp only [FunctionEntry.parts, Prod.mk.injEq] at hparts
  unfold FunctionEntry.isUnused at hunused ⊢
  rwa [← hparts.1, ← hparts.2.1, ← hparts.2.2]

/-- An action that leaves the entry, the view and the states of the observers alone. -/
theorem FollowsAt.of_same (hentry : SameEntry s s' key) (hactive : ∀ r ∈ s.observersOf key, s'.isActive r = s.isActive r)
    (hobserved : s'.observed key = s.observed key) : FollowsAt s s' key := by
  have hactiveOf : s'.activeOf key = s.activeOf key := by
    unfold State.activeOf
    rw [hentry.observersOf]
    exact List.filter_congr hactive
  refine ⟨hentry.used, fun h => ?_, fun h => ?_⟩
  · unfold Told at h ⊢
    rwa [hactiveOf, hobserved]
  · unfold Shown at h ⊢
    rwa [hactiveOf, hobserved, hentry.isAuto]

/-- The indexes are those of the state before. -/
structure Same (s s' : State S) : Prop where
  heap : s'.heap = s.heap
  next : s'.next = s.next
  byId : s'.byId = s.byId
  byConnection : s'.byConnection = s.byConnection
  byTarget : s'.byTarget = s.byTarget
  stateCounts : s'.stateCounts = s.stateCounts
  observersOf : ∀ key, s'.observersOf key = s.observersOf key

theorem Same.get (h : Same s s') : s'.get = s.get := by
  unfold State.get
  rw [h.byId]

theorem Same.find (h : Same s s') : s'.find = s.find := by
  unfold State.find
  rw [h.get, h.heap]

theorem Indexed.congr (h : Indexed s away) (hsame : Same s s') : Indexed s' away where
  distinct := hsame.byId ▸ h.distinct
  named := by
    rw [hsame.get, hsame.find]
    exact h.named
  fresh := by
    rw [hsame.heap, hsame.next]
    exact h.fresh
  gone := by
    rw [hsame.heap, hsame.get]
    exact h.gone
  connection := by
    rw [hsame.byConnection, hsame.find]
    exact h.connection
  target := by
    rw [hsame.byTarget, hsame.find]
    exact h.target
  tidy := by
    rw [hsame.byConnection, hsame.byTarget]
    exact h.tidy
  function := by
    intro f r
    rw [hsame.observersOf, hsame.get, hsame.find]
    exact h.function f r
  nodup := by
    intro f
    rw [hsame.observersOf]
    exact h.nodup f
  counts := by
    intro state hstate
    rw [hsame.stateCounts, h.counts state hstate, State.count, State.count, hsame.byId, hsame.heap]

theorem Same.grows (h : Same s s') : Grows s s' := by
  refine ⟨h.next.ge, fun r o ho => ⟨o, ?_, rfl, rfl, rfl, rfl, rfl, rfl⟩⟩
  rw [h.heap]
  exact ho

theorem Indexed.get_inj (h : Indexed s away) {id id' : String} (hid : s.get id = some r) (hid' : s.get id' = some r) :
    id = id' := by
  have hname := h.named id r hid
  have hname' := h.named id' r hid'
  unfold State.find at hname hname'
  rw [hid] at hname
  rw [hid', hname] at hname'
  exact Option.some.inj hname'

theorem find_eq (hid : s.get id = some r) (ho : s.heap r = some o) : s.find id = some o := by
  unfold State.find
  rw [hid]
  exact ho

/-- An observer that can be found can be found by its own id. -/
theorem Indexed.id_eq (h : Indexed s away) (hid : s.get id = some r) (ho : s.heap r = some o) : o.id = id := by
  have hname := h.named id r hid
  rw [find_eq hid ho] at hname
  exact Option.some.inj hname

/-- It is in the entry of its function and in no other. -/
theorem Indexed.mem_observersOf (h : Indexed s away) (ho : s.heap r = some o) (hlive : s.get o.id = some r) {f : FnKey} :
    r ∈ s.observersOf f ↔ f = o.function := by
  rw [h.function]
  constructor
  · rintro ⟨id, hid, hf⟩
    rw [find_eq hid ho] at hf
    exact (Option.some.inj hf).symm
  · rintro rfl
    exact ⟨o.id, hlive, by rw [find_eq hlive ho]; rfl⟩

/-! ### Another observer behind the pointer -/

theorem find_set (ho : s.heap r = some o) {β : Type} {p : Observer S → β} (hp : p u = p o) (id : String) :
    ((s.set r u).find id).map p = (s.find id).map p := by
  unfold State.find State.set State.get
  dsimp only
  cases Assoc.get? s.byId id with
  | none => rfl
  | some r' =>
    rw [Option.bind_some, Option.bind_some, Function.update_apply]
    split
    · rename_i heq
      rw [heq, ho, Option.map_some, Option.map_some, hp]
    · rfl

theorem count_set (h : Indexed s away) (ho : s.heap r = some o) (hlive : s.get o.id = some r) (state : ObserverState) :
    (s.set r u).count state + (if o.state = state then 1 else 0) = s.count state + (if u.state = state then 1 else 0) := by
  have hrest : ∀ m ∈ Assoc.erase s.byId o.id, m.2 ≠ r := by
    rintro ⟨id, r'⟩ hm rfl
    obtain ⟨hm, hne⟩ := List.mem_filter.mp hm
    exact of_decide_eq_true hne (h.get_inj (Assoc.get?_of_mem h.distinct hm) hlive)
  have hperm := Assoc.perm_erase h.distinct hlive
  unfold State.count State.set
  dsimp only
  rw [hperm.countP_eq, hperm.countP_eq, List.countP_cons, List.countP_cons, Function.update_self, ho]
  have hsame : List.countP (fun m => (Function.update s.heap r (some u) m.2).any (·.state = state))
      (Assoc.erase s.byId o.id) = List.countP (fun m => (s.heap m.2).any (·.state = state)) (Assoc.erase s.byId o.id) := by
    refine List.countP_congr fun m hm => ?_
    rw [Function.update_of_ne (hrest m hm)]
  rw [hsame]
  simp only [Option.any_some, decide_eq_true_eq]
  omega

/-- One that is alike, with its state counted, and its id under the connection it has now. -/
theorem Indexed.setAt (h : Indexed s away) (ho : s.heap r = some o) (halike : Alike o u)
    (hgone : s.get o.id ≠ some r → u.Gone) {byConnection : Multimap Conn String} {away' : Conn → String → Prop}
    (hconnection : ∀ c id, id ∈ byConnection.values c ↔
      ((s.set r u).find id).map (·.connection) = some c ∧ ¬away' c id)
    (htidy : byConnection.Tidy) {counts : ObserverState → Int}
    (hcounts : ∀ state, state ≠ .disposed → counts state = (s.set r u).count state) :
    Indexed { s.set r u with byConnection := byConnection, stateCounts := counts } away' where
  distinct := h.distinct
  named := by
    intro id r' hid
    have hname := h.named id r' hid
    rwa [← find_set ho halike.id] at hname
  fresh := by
    intro r' hr'
    change (Function.update s.heap r (some u) r').isSome at hr'
    rw [Function.update_apply] at hr'
    split at hr'
    · rename_i heq
      subst heq
      exact h.fresh _ (Option.isSome_of_eq_some ho)
    · exact h.fresh r' hr'
  gone := by
    intro r' o₁ ho₁ hlost
    change Function.update s.heap r (some u) r' = some o₁ at ho₁
    rw [Function.update_apply] at ho₁
    split at ho₁
    · rename_i heq
      subst heq
      cases ho₁
      rw [halike.id] at hlost
      exact hgone hlost
    · exact h.gone r' o₁ ho₁ hlost
  connection := hconnection
  target := by
    intro t id
    have htarget := h.target t id
    rwa [← find_set ho halike.target] at htarget
  tidy := ⟨htidy, h.tidy.2⟩
  function := by
    intro f r'
    have hfunction := h.function f r'
    simp only [← find_set ho halike.function] at hfunction
    exact hfunction
  nodup := h.nodup
  counts := hcounts

theorem Indexed.set (h : Indexed s away) (ho : s.heap r = some o) (halike : Alike o u)
    (hconnection : u.connection = o.connection) (hgone : s.get o.id ≠ some r → u.Gone)
    {counts : ObserverState → Int} (hcounts : ∀ state, state ≠ .disposed → counts state = (s.set r u).count state) :
    Indexed { s.set r u with stateCounts := counts } away := by
  refine h.setAt ho halike hgone (fun c id => ?_) h.tidy.1 hcounts
  rw [find_set ho hconnection]
  exact h.connection c id

theorem Grows.set (ho : s.heap r = some o) (halike : Alike o u) : Grows s (s.set r u) := by
  refine ⟨le_rfl, fun r' o₁ ho₁ => ?_⟩
  show ∃ o₂, Function.update s.heap r (some u) r' = some o₂ ∧ _
  rw [Function.update_apply]
  split
  · rename_i heq
    subst heq
    obtain rfl : o = o₁ := Option.some.inj (ho.symm.trans ho₁)
    exact ⟨u, rfl, halike⟩
  · exact ⟨o₁, ho₁, rfl, rfl, rfl, rfl, rfl, rfl⟩

theorem isActive_set (ho : s.heap r = some o) (hstate : (u.state = .active) = (o.state = .active)) (r' : Ref) :
    (s.set r u).isActive r' = s.isActive r' := by
  unfold State.isActive State.set
  dsimp only
  rw [Function.update_apply]
  split
  · rename_i heq
    rw [heq, ho, Option.any_some, Option.any_some, decide_eq_decide]
    exact iff_of_eq hstate
  · rfl

theorem awake_set (h : Awake s) (ho : s.heap r = some o) (hstate : u.state = o.state) : Awake (s.set r u) := by
  intro id o₁ ho₁
  have hmap := find_set (s := s) (r := r) (p := Observer.state) ho hstate id
  rw [ho₁] at hmap
  obtain ⟨o₂, ho₂, heq⟩ := Option.map_eq_some_iff.mp hmap.symm
  rw [← heq]
  exact h id o₂ ho₂

/-! ### The entries -/

theorem sameEntry_setEntry {e e' : FunctionEntry} (he : s.byFunction key = some e) (hparts : e'.parts = e.parts)
    (f : FnKey) : SameEntry s (s.setEntry key (some e')) f := by
  unfold SameEntry State.setEntry
  dsimp only
  rw [Function.update_apply]
  split
  · rename_i heq
    rw [heq, he, Option.map_some, Option.map_some, hparts]
  · rfl

theorem observersOf_setEntry (s : State S) (key : FnKey) (entry : Option FunctionEntry) (f : FnKey) :
    (s.setEntry key entry).observersOf f = if f = key then entry.elim [] (·.observers) else s.observersOf f := by
  unfold State.observersOf State.setEntry
  dsimp only
  rw [Function.update_apply]
  split <;> rfl

theorem isAuto_setEntry (s : State S) (key : FnKey) (entry : Option FunctionEntry) (f : FnKey) :
    (s.setEntry key entry).isAuto f = if f = key then entry.all (·.isAuto) else s.isAuto f := by
  unfold State.isAuto State.setEntry
  dsimp only
  rw [Function.update_apply]
  split <;> rfl

variable {entry : Option FunctionEntry}

theorem sameEntry_of_ne {f : FnKey} (hf : f ≠ key) :
    SameEntry s (s.setEntry key entry) f := by
  unfold SameEntry State.setEntry
  dsimp only
  rw [Function.update_of_ne hf]

theorem FollowsAt.setEntry_of_ne {f : FnKey} (hf : f ≠ key) :
    FollowsAt s (s.setEntry key entry) f :=
  .of_same (sameEntry_of_ne hf) (fun _ _ => rfl) rfl

/-- What the entry lists says which observers it has. -/
theorem same_setEntry (h : entry.elim [] (·.observers) = s.observersOf key) :
    Same s (s.setEntry key entry) := by
  refine ⟨rfl, rfl, rfl, rfl, rfl, rfl, fun f => ?_⟩
  rw [observersOf_setEntry]
  split
  · rename_i heq
    rw [heq, h]
  · rfl

theorem observersOf_of_entry {e : FunctionEntry} (he : s.byFunction key = some e) : s.observersOf key = e.observers := by
  unfold State.observersOf
  rw [he]
  rfl

/-! #### `drop_entry_if_unused` -/

theorem dropEntryIfUnused_same (s : State S) (key : FnKey) : Same s (s.dropEntryIfUnused key) := by
  unfold State.dropEntryIfUnused
  split
  · exact ⟨rfl, rfl, rfl, rfl, rfl, rfl, fun _ => rfl⟩
  · rename_i e he
    split
    · rename_i hunused
      have hnone : e.observers = [] := by
        simp only [FunctionEntry.isUnused, Bool.and_eq_true, List.isEmpty_iff] at hunused
        exact hunused.1.1
      have hsame : Same s (s.setEntry key none) := same_setEntry (by rw [observersOf_of_entry he, hnone]; rfl)
      exact ⟨rfl, rfl, rfl, rfl, rfl, rfl, hsame.observersOf⟩
    · exact ⟨rfl, rfl, rfl, rfl, rfl, rfl, fun _ => rfl⟩

theorem dropEntryIfUnused_used (s : State S) (key : FnKey) : Used (s.dropEntryIfUnused key) key := by
  unfold State.dropEntryIfUnused
  split
  · rename_i hnone
    intro e he
    rw [hnone] at he
    cases he
  · rename_i e he
    split
    · intro e' he'
      change Function.update s.byFunction key none key = some e' at he'
      rw [Function.update_self] at he'
      cases he'
    · rename_i hused
      intro e' he'
      obtain rfl : e = e' := Option.some.inj (he.symm.trans he')
      exact Bool.not_eq_true _ ▸ hused

theorem dropEntryIfUnused_isAuto (s : State S) (key f : FnKey) : (s.dropEntryIfUnused key).isAuto f = s.isAuto f := by
  unfold State.dropEntryIfUnused
  split
  · rfl
  · rename_i e he
    split
    · rename_i hunused
      show (s.setEntry key none).isAuto f = _
      rw [isAuto_setEntry]
      split
      · rename_i heq
        have hauto : e.isAuto = true := by
          simp only [FunctionEntry.isUnused, Bool.and_eq_true, Option.isNone_iff_eq_none] at hunused
          simp [FunctionEntry.isAuto, hunused.1.2]
        rw [heq, State.isAuto, he]
        exact hauto.symm
      · rfl
    · rfl

theorem dropEntryIfUnused_observed (s : State S) (key : FnKey) : (s.dropEntryIfUnused key).observed = s.observed := by
  unfold State.dropEntryIfUnused
  split
  · rfl
  · split <;> rfl

theorem activeOf_congr (hsame : Same s s') (key : FnKey) : s'.activeOf key = s.activeOf key := by
  unfold State.activeOf State.isActive
  rw [hsame.observersOf, hsame.heap]

theorem dropEntryIfUnused_follows (s : State S) (key f : FnKey) : FollowsAt s (s.dropEntryIfUnused key) f := by
  have hactive := activeOf_congr (dropEntryIfUnused_same s key) f
  refine ⟨fun h => ?_, fun h => ?_, fun h => ?_⟩
  · by_cases hf : f = key
    · rw [hf]
      exact dropEntryIfUnused_used s key
    · unfold State.dropEntryIfUnused
      split
      · exact h
      · split
        · exact (FollowsAt.setEntry_of_ne hf).used h
        · exact h
  · unfold Told at h ⊢
    rwa [hactive, dropEntryIfUnused_observed]
  · unfold Shown at h ⊢
    rwa [hactive, dropEntryIfUnused_observed, dropEntryIfUnused_isAuto]

/-! #### `refresh_active` -/

theorem refreshActive_same (s : State S) (key : FnKey) : Same s (s.refreshActive key) :=
  ⟨rfl, rfl, rfl, rfl, rfl, rfl, fun _ => rfl⟩

theorem refreshActive_shown (s : State S) (key : FnKey) : Shown (s.refreshActive key) key := by
  show Function.update s.observed key _ key = if s.isAuto key = true ∧ s.activeOf key ≠ [] then some (s.activeOf key) else none
  rw [Function.update_self]
  unfold State.activeOf State.isAuto State.observersOf
  cases s.byFunction key with
  | none => simp
  | some e =>
    by_cases hauto : e.isAuto = true
    · by_cases hactive : e.observers.filter s.isActive = []
      · simp only [Option.all_some, Option.elim_some, hauto, hactive, if_true, List.isEmpty_nil, ne_eq, not_true_eq_false,
          and_false, if_false]
      · simp only [Option.all_some, Option.elim_some, hauto, hactive, if_true, List.isEmpty_iff, ne_eq, not_false_eq_true,
          and_true, if_false]
    · simp [hauto]

theorem refreshActive_follows (s : State S) (key f : FnKey) : FollowsAt s (s.refreshActive key) f := by
  by_cases hf : f = key
  · subst hf
    exact ⟨fun h => h, fun _ => (refreshActive_shown s f).told, fun _ => refreshActive_shown s f⟩
  · exact .of_same rfl (fun _ _ => rfl) (Function.update_of_ne hf _ _)

/-! #### `detach_from_function` -/

theorem Same.trans (h : Same s s') (h' : Same s' s'') : Same s s'' where
  heap := h'.heap.trans h.heap
  next := h'.next.trans h.next
  byId := h'.byId.trans h.byId
  byConnection := h'.byConnection.trans h.byConnection
  byTarget := h'.byTarget.trans h.byTarget
  stateCounts := h'.stateCounts.trans h.stateCounts
  observersOf := fun f => (h'.observersOf f).trans (h.observersOf f)

/-- The entry without the observer, before it is dropped or seen to be in use. -/
theorem detachFromFunction_same (s : State S) (r : Ref) (key : FnKey) :
    ∃ entry : Option FunctionEntry, entry.elim [] (·.observers) = (s.observersOf key).filter (· ≠ r) ∧
      Same (s.setEntry key entry) (s.detachFromFunction r key) := by
  unfold State.detachFromFunction
  cases he : s.byFunction key with
  | none =>
    refine ⟨none, ?_, ?_⟩
    · unfold State.observersOf
      rw [he]
      rfl
    · have hself : s.setEntry key none = s := by
        unfold State.setEntry
        rw [← he, Function.update_eq_self]
      rw [hself]
      exact (dropEntryIfUnused_same s key).trans (refreshActive_same _ key)
  | some e =>
    refine ⟨some { e with observers := e.observers.filter (· ≠ r) }, ?_, ?_⟩
    · rw [observersOf_of_entry he]
      rfl
    · exact (dropEntryIfUnused_same _ key).trans (refreshActive_same _ key)

theorem detachFromFunction_follows (s : State S) (r : Ref) (key f : FnKey) :
    FollowsAt s (s.detachFromFunction r key) f := by
  unfold State.detachFromFunction
  dsimp only
  by_cases hf : f = key
  · subst hf
    refine ⟨fun _ => ?_, fun _ => (refreshActive_shown _ f).told, fun _ => refreshActive_shown _ f⟩
    exact (refreshActive_follows _ f f).used (dropEntryIfUnused_used _ f)
  · have hrest : ∀ {s'}, FollowsAt s s' f → FollowsAt s ((s'.dropEntryIfUnused key).refreshActive key) f :=
      fun hdetached => (hdetached.trans (dropEntryIfUnused_follows _ key f)).trans (refreshActive_follows _ key f)
    split
    · exact hrest (.setEntry_of_ne hf)
    · exact hrest (.refl s f)

end Iii.Registry
