import Iii.Configuration.Store

/-! What each step of the store can do, once for all invariants. -/
namespace Iii.Configuration
open Lib

variable {V : Type}

def Edit.id : Edit V → String
  | .put fresh => fresh.id
  | .remove id => id

/-- The adapter's map is keyed by the ids of its entries. -/
def Keyed (stored : String → Option (Entry V)) : Prop := ∀ id entry, stored id = some entry → entry.id = id

/-- A request gets the lock and is about to call the adapter. -/
inductive Opens (J : Values V) (entries : String → Option (Entry V)) : Request V → Point V → Prop where
  | given (r : Registration V) (value : V) (h : r.initial = some value) :
      Opens J entries (.register r) (.registering (r.entry value) .given)
  | kept (r : Registration V) (h : r.initial = none) :
      Opens J entries (.register r)
        (.registering (r.entry (((entries r.id).map (·.value)).getD J.null)) .kept)
  | preserved (r : Registration V) (prior : Entry V) (hprior : entries r.id = some prior)
      (hvalue : prior.value ≠ J.null) :
      Opens J entries (.ensure r) (.registering (r.entry prior.value) (.ensured .preserved))
  | seeded (r : Registration V) (value : V) (h : r.initial = some value)
      (hprior : ∀ prior, entries r.id = some prior → prior.value = J.null) :
      Opens J entries (.ensure r) (.registering (r.entry value) (.ensured .seeded))
  | registered (r : Registration V) (h : r.initial = none)
      (hprior : ∀ prior, entries r.id = some prior → prior.value = J.null) :
      Opens J entries (.ensure r) (.registering (r.entry J.null) (.ensured .registered))
  | set (id : String) (value : V) : Opens J entries (.set id value) (.setting id value)
  | migrate (source target : String) : Opens J entries (.migrate source target) (.migrating source target)
  | delete (id : String) : Opens J entries (.delete id) (.deleting id)

/-- What a request does. -/
inductive Requested (J : Values V) (s : State V) : Request V → State V → Option (Report V) → Prop where
  | refused (q : Request V) (error : StoreError) : Requested J s q s (some (.failed error))
  | opened (q : Request V) (point : Point V) (h : Opens J s.entries q point) :
      Requested J s q (s.goto (some point)) none
  | overridden (id : String) (value : V) (entry : Entry V) (old : Option V) :
      Requested J s (.setMemory id value)
        { s.override id (some value) with
          origin := Function.update s.origin id ((s.adapter id).map (·.value)) }
        (some (.set entry old))
  | delivers (change : ExternalChange V) (queue : List (ExternalChange V)) (h : s.queue = change :: queue) :
      Requested J s .deliver ({ s with queue := queue }.goto (some (.delivering change))) none

/-- What a call of the adapter does. -/
inductive Called (s : State V) : Point V → State V → Option (Report V) → Prop where
  | failed (point : Point V) (h : match point with
      | .registering _ _ | .setting _ _ | .deleting _ => True
      | _ => False) : Called s point (s.goto none) (some (.failed .adapter))
  | register (entry : Entry V) (purpose : Purpose) :
      Called s (.registering entry purpose) ((s.commit entry.id (some entry)).goto
        (some (.registered entry purpose (s.adapter entry.id).isNone))) none
  | set (id : String) (value : V) (entry : Entry V) (h : s.adapter id = some entry) :
      Called s (.setting id value) ((s.commit id (some { entry with value := value })).goto
        (some (.stored { entry with value := value } entry.value))) none
  | deleteNone (id : String) (h : s.adapter id = none) :
      Called s (.deleting id) (s.goto (some (.deleted id none))) none
  | delete (id : String) (entry : Entry V) (h : s.adapter id = some entry) :
      Called s (.deleting id) ((s.commit id none).goto (some (.deleted id (some entry)))) none
  | migrated (source : String) (entry : Entry V) (h : source ≠ entry.id) :
      Called s (.migrating source entry.id) (((s.commit entry.id (some entry)).commit source none).goto
        (some (.migrated source entry.id .migrated (some entry)))) none
  | preserved (source : String) (entry : Entry V) (h : source = entry.id ∨ s.adapter source = none) :
      Called s (.migrating source entry.id) (((s.settle source).commit entry.id (some entry)).goto
        (some (.migrated source entry.id .preserved (some entry)))) none
  | missing (source target : String) (hsource : s.adapter source = none) (htarget : s.adapter target = none) :
      Called s (.migrating source target)
        (((s.settle source).settle target).goto (some (.migrated source target .missing none))) none
  | broken (source target : String) (first second : Option (Entry V))
      (hfirst : ∀ entry, first = some entry → entry.id = source)
      (hsecond : ∀ entry, second = some entry → entry.id = target) :
      Called s (.migrating source target) (((s.commitSome source first).commitSome target second).goto
        (some (.reconciling [source, target]))) none
  | reconcile (id : String) (ids : List String) (h : ids ≠ []) :
      Called s (.reconciling (id :: ids)) ((s.cache id (s.adapter id)).goto (some (.reconciling ids))) none
  | reconcileLast (id : String) :
      Called s (.reconciling [id]) ((s.cache id (s.adapter id)).goto none) (some (.failed .adapter))
  | deliver (change : ExternalChange V) :
      Called s (.delivering change) (s.goto (some (.delivered change (s.adapter change.id)))) none

section
variable {J : Values V} {s s' : State V} {r : Option (Report V)}

theorem Requested.of_eq {q : Request V} {p : State V × Option (Report V)} (hp : Requested J s q p.1 p.2)
    (h : some p = some (s', r)) : Requested J s q s' r := by
  cases h
  exact hp

theorem request_register {q : Registration V} : Requested J s (.register q) (s.register J q).1 (s.register J q).2 := by
  unfold State.register State.refuse
  split
  · exact .refused _ _
  · split
    · rename_i v hv
      split
      · exact .opened _ _ (.given q v hv)
      · exact .refused _ _
    · rename_i hnone
      have hkept : Opens J s.entries _ _ := .kept q hnone
      cases hprior : s.entries q.id with
      | none => exact .opened _ _ (by simpa [hprior] using hkept)
      | some prior => exact .opened _ _ (by simpa [hprior] using hkept)

theorem called {point : Point V} {o : Outcome V} (h : s.call point o = some (s', r)) : Called s point s' r := by
  unfold State.call at h
  split at h
  · cases h; exact .register _ _
  · cases h; exact .failed _ trivial
  · split at h
    · cases h; exact .failed _ trivial
    · rename_i entry hentry
      cases h
      exact .set _ _ entry hentry
  · cases h; exact .failed _ trivial
  · split at h
    · rename_i hnone
      cases h
      exact .deleteNone _ hnone
    · rename_i entry hentry
      cases h
      exact .delete _ entry hentry
  · cases h; exact .failed _ trivial
  · split at h
    · rename_i hids
      cases h
      obtain ⟨hne, rfl⟩ := hids
      exact .migrated _ _ hne
    · cases h
  · split at h
    · rename_i hids
      cases h
      obtain ⟨hsource, rfl⟩ := hids
      exact .preserved _ _ hsource
    · cases h
  · split at h
    · rename_i hnone
      cases h
      exact .missing _ _ hnone.1 hnone.2
    · cases h
  · split at h
    · rename_i hids
      cases h
      exact .broken _ _ _ _ (by simpa using hids.1) (by simpa using hids.2)
    · cases h
  · split at h
    · rename_i hnil
      subst hnil
      cases h
      exact .reconcileLast _
    · rename_i hne
      cases h
      exact .reconcile _ _ hne
  · cases h; exact .deliver _
  · cases h

variable [DecidableEq V]

theorem request_ensure {q : Registration V} : Requested J s (.ensure q) (s.ensure J q).1 (s.ensure J q).2 := by
  unfold State.ensure State.refuse
  split
  · exact .refused _ _
  · cases hprior : (s.entries q.id).filter fun prior => prior.value ≠ J.null with
    | some prior =>
      obtain ⟨hentry, hvalue⟩ := Option.filter_eq_some_iff.mp hprior
      exact .opened _ _ (.preserved q prior hentry (by simpa using hvalue))
    | none =>
      have hnull : ∀ prior, s.entries q.id = some prior → prior.value = J.null := by
        intro prior hp
        rw [hp] at hprior
        simpa using hprior
      dsimp only
      cases hinitial : q.initial with
      | none => exact .opened _ _ (.registered q hinitial hnull)
      | some v =>
        dsimp only
        split
        · exact .opened _ _ (.seeded q v hinitial hnull)
        · exact .refused _ _

theorem request_set {id : String} {value : V} :
    Requested J s (.set id value) (s.set J id value).1 (s.set J id value).2 := by
  unfold State.set State.refuse
  split
  · exact .refused _ _
  · split
    · exact .refused _ _
    · split
      · exact .refused _ _
      · split
        · exact .opened _ _ (.set id value)
        · exact .refused _ _

theorem request_setMemory {id : String} {value : V} :
    Requested J s (.setMemory id value) (s.setMemory J id value).1 (s.setMemory J id value).2 := by
  unfold State.setMemory State.refuse
  split
  · exact .refused _ _
  · extract_lets refused overridden after
    split
    · exact .refused _ _
    · have hactive : ∃ entry, after.activeEntry J id = some entry := by
        simp [State.activeEntry, after, overridden, State.override]
      obtain ⟨entry, hentry⟩ := hactive
      rw [hentry]
      exact .overridden id value entry _

theorem requested {q : Request V} (h : s.request J q = some (s', r)) : Requested J s q s' r := by
  cases q with
  | register q => exact .of_eq request_register h
  | ensure q => exact .of_eq request_ensure h
  | set id value => exact .of_eq request_set h
  | setMemory id value => exact .of_eq request_setMemory h
  | migrate source target =>
    simp only [State.request, State.migrate, State.refuse] at h
    split at h
    · cases h
      exact .refused _ _
    · split at h <;> cases h
      · exact .refused _ _
      · exact .opened _ _ (.migrate source target)
  | delete id => cases h; exact .opened _ _ (.delete id)
  | deliver =>
    simp only [State.request] at h
    split at h
    · rename_i change queue hqueue
      cases h
      exact .delivers change queue hqueue
    · cases h

/-- What a delivery does: the cache takes in what was read, and an override goes when the change
still stands and the cached value was another one. -/
theorem applied_fst (change : ExternalChange V) (current : Option (Entry V)) :
    (s.applied change current).1 =
      if State.stillCurrent change current = true ∧
          (s.entries change.id).map (·.value) ≠ current.map (·.value) then
        (s.cache change.id current).override change.id none
      else s.cache change.id current := by
  unfold State.applied
  cases State.stillCurrent change current
  · simp
  · simp only [Bool.not_true, Bool.false_eq_true, if_false, true_and]
    split <;> rfl

theorem applied_snd (change : ExternalChange V) (current : Option (Entry V)) :
    (s.applied change current).2 = (State.stillCurrent change current &&
      ((s.entries change.id).map (·.value) ≠ current.map (·.value) || (s.runtimeValues change.id).isNone)) := by
  unfold State.applied
  cases State.stillCurrent change current
  · simp
  · simp only [Bool.not_true, Bool.false_eq_true, if_false, Bool.true_and]
    split <;> simp_all

theorem edit_captures {e : Edit V} (h : s.edit e = some s') : ∃ entry change, s' = s.capture e.id entry change := by
  cases e with
  | put fresh =>
    simp only [State.edit] at h
    split at h
    · cases h
      exact ⟨_, _, rfl⟩
    · split at h <;> cases h
      exact ⟨_, _, rfl⟩
  | remove id =>
    obtain ⟨prior, -, rfl⟩ := Option.map_eq_some_iff.mp h
    exact ⟨_, _, rfl⟩

/-- What the watcher does: the change says which id it is of and what value it is now. -/
theorem edited {e : Edit V} (hkeyed : Keyed s.adapter) (h : s.edit e = some s') :
    ∃ entry change, s' = s.capture e.id entry change ∧ change.id = e.id ∧ change.value = entry.map (·.value) ∧
      ∀ x, entry = some x → x.id = e.id := by
  cases e with
  | put fresh =>
    simp only [State.edit] at h
    split at h
    · cases h
      exact ⟨some fresh, .registered fresh, rfl, rfl, rfl, fun x hx => by cases hx; rfl⟩
    · split at h <;> cases h
      exact ⟨_, .updated _, rfl, rfl, rfl, fun x hx => by cases hx; rfl⟩
  | remove id =>
    simp only [State.edit] at h
    obtain ⟨prior, hprior, rfl⟩ := Option.map_eq_some_iff.mp h
    exact ⟨none, .deleted prior, rfl, hkeyed id prior hprior, rfl, by simp⟩

end

end Iii.Configuration
