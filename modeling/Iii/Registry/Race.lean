import Iii.Lib.Multimap
import Iii.Owner.Listed

/-! A new observer while an old one of the same id is forgotten (`observer/registry.rs`, `observer/lifecycle.rs`).

`create` looks for the id and for its tombstone, and much later `publish` puts the observer into one map after the
other. `forget` takes a disposed observer out of them one after the other: out of `by_id` by its pointer, out of
`by_connection` and `by_target` by its id. Any number of calls are under way, each between two of its actions; what
happens to the entry of the function is the business of `Entries`.

The view of the routed hook, which both end by making anew, is left out here, and so are `reattach` and the timers. -/
namespace Iii.Race
open Lib
open Iii.Owner (Conn FnKey Flags)
open Entries (ObserverRef Live Listed)

/-- What an observer is made with. -/
structure Observer where
  id : String
  connection : Conn
  target : FnKey
  function : FnKey

/-- A pointer is `published` when it was put into `by_id`, and `disposed` for good. A tombstone is known by the
connection it is for. -/
structure State where
  byId : String → Option ObserverRef
  byConnection : Multimap Conn String
  byTarget : Multimap FnKey String
  tombstones : String → Option Conn
  published : ObserverRef → Bool
  disposed : ObserverRef → Bool
  entries : Entries.State

def State.new (flags : ObserverRef → Flags) : State where
  byId := fun _ => none
  byConnection := fun _ => none
  byTarget := fun _ => none
  tombstones := fun _ => none
  published := fun _ => false
  disposed := fun _ => false
  entries := .new flags

inductive Task where
  /-- `create`: whether the id is taken, its tombstone, the checks. -/
  | create (observer : ObserverRef)
  | checkTombstone (observer : ObserverRef)
  | check (observer : ObserverRef)
  /-- `publish`. -/
  | publish (observer : ObserverRef)
  | addConnection (observer : ObserverRef)
  | addTarget (observer : ObserverRef)
  /-- `update`, with a change that disposes. -/
  | dispose (observer : ObserverRef)
  /-- `forget`. -/
  | forget (observer : ObserverRef)
  | rememberTombstone (observer : ObserverRef)
  | leaveConnection (observer : ObserverRef)
  | dropConnection (observer : ObserverRef)
  | leaveTarget (observer : ObserverRef)
  | dropTarget (observer : ObserverRef)
  | entries (t : Entries.Task)

inductive Act where
  | go
  /-- A tombstone is kept, and valid, for a time. -/
  | tombstone (valid : Bool)
  /-- What the hook, the session's rights and the limits say. -/
  | verdict (accepted : Bool)
  | entries (a : Entries.Act)

/-- `info` is what each observer is made with. -/
def State.step (info : ObserverRef → Observer) (s : State) : Task → Act → Option (State × List Task)
  | .create r, .go =>
    match s.byId (info r).id with
    | some _ => some (s, [])
    | none => some (s, [.checkTombstone r])
  | .checkTombstone r, .tombstone valid =>
    if s.tombstones (info r).id = some (info r).connection ∧ valid then some (s, []) else some (s, [.check r])
  | .check r, .verdict accepted => some (s, if accepted then [.publish r] else [])
  | .publish r, .go =>
    if s.published r then none
    else
      match s.byId (info r).id with
      | some _ => some (s, [])
      | none =>
        some ({ s with
            byId := Function.update s.byId (info r).id (some r)
            published := Function.update s.published r true },
          [.addConnection r])
  | .addConnection r, .go =>
    some ({ s with byConnection := s.byConnection.add (info r).connection (info r).id }, [.addTarget r])
  | .addTarget r, .go =>
    some ({ s with byTarget := s.byTarget.add (info r).target (info r).id },
      [.entries (.find (info r).function (.attachToFunction r))])
  | .dispose r, .go =>
    if s.disposed r then some (s, [])
    else some ({ s with disposed := Function.update s.disposed r true }, [.forget r])
  | .forget r, .go =>
    some (if s.byId (info r).id = some r then { s with byId := Function.update s.byId (info r).id none } else s,
      [.rememberTombstone r])
  | .rememberTombstone r, .go =>
    some ({ s with tombstones := Function.update s.tombstones (info r).id (some (info r).connection) },
      [.leaveConnection r])
  | .leaveConnection r, .go =>
    some ({ s with byConnection := s.byConnection.take (info r).connection (info r).id }, [.dropConnection r])
  | .dropConnection r, .go =>
    some ({ s with byConnection := s.byConnection.dropEmpty (info r).connection }, [.leaveTarget r])
  | .leaveTarget r, .go =>
    some ({ s with byTarget := s.byTarget.take (info r).target (info r).id }, [.dropTarget r])
  | .dropTarget r, .go =>
    some ({ s with byTarget := s.byTarget.dropEmpty (info r).target }, [.entries (.detachFromFunction r)])
  | .entries t, .entries a =>
    (s.entries.step (fun r => (info r).function) t a).map fun (entries, news) =>
      ({ s with entries := entries }, news.map .entries)
  | _, _ => none

/-- A call attaches an observer only as the end of `publish`, and detaches one only as the end of `forget`. -/
def Task.starts (s : State) : Task → Bool
  | .create _ => true
  | .dispose r => s.published r
  | .entries t => t.isCall && t.attaches.isNone && t.leaves.isNone
  | _ => false

def pool (info : ObserverRef → Observer) : Pool State Task Act where
  Start := fun s t => t.starts s
  Exec := fun s t a s' news => s.step info t a = some (s', news)

variable {info : ObserverRef → Observer} {s s' : State} {t : Task} {a : Act} {news : List Task} {r : ObserverRef}

/-! ### What is owed -/

inductive Index where
  | connection | target | function

/-- The index holds the observer. -/
def Holds (info : ObserverRef → Observer) (s : State) (r : ObserverRef) : Index → Prop
  | .connection => (info r).id ∈ s.byConnection.values (info r).connection
  | .target => (info r).id ∈ s.byTarget.values (info r).target
  | .function => Listed s.entries (info r).function r

/-- `publish` is yet to put the observer into the index. -/
def Task.owes (r : ObserverRef) (index : Index) : Task → Prop
  | .addConnection r' => r' = r
  | .addTarget r' => r' = r ∧ index ≠ .connection
  | .entries t => index = .function ∧ ∃ key, t.attaches = some (key, r)
  | _ => False

/-- No `forget` takes its id out of an index into which a newer observer, of the same connection or the same target,
has already put it. -/
def Spared (info : ObserverRef → Observer) (s : State) (t : Task) (_ : Act) (others : Multiset Task) : Prop :=
  match t with
  | .leaveConnection r => ∀ r', s.byId (info r).id = some r' → (info r').connection = (info r).connection →
      ∃ u ∈ others, u.owes r' .connection
  | .leaveTarget r => ∀ r', s.byId (info r).id = some r' → (info r').target = (info r).target →
      ∃ u ∈ others, u.owes r' .target
  | _ => True

/-- What a task knows: whom `forget` forgets is not in `by_id`, and never will be. -/
def Task.Knows (info : ObserverRef → Observer) (s : State) : Task → Prop
  | .dispose r | .forget r => s.published r = true
  | .rememberTombstone r | .leaveConnection r | .dropConnection r | .leaveTarget r | .dropTarget r =>
    s.published r = true ∧ s.byId (info r).id ≠ some r
  | .entries t =>
    (∀ key r, t.attaches = some (key, r) → key = (info r).function) ∧
      ∀ r, t.leaves = some r → s.published r = true ∧ s.byId (info r).id ≠ some r
  | _ => True

/-! ### One action -/

theorem create_cases (h : s.step info (.create r) a = some (s', news)) :
    s' = s ∧ (news = [] ∨ news = [.checkTombstone r]) := by
  unfold State.step at h
  cases a with
  | go =>
    dsimp only at h
    split at h <;> cases h
    · exact ⟨rfl, .inl rfl⟩
    · exact ⟨rfl, .inr rfl⟩
  | _ => cases h

theorem checkTombstone_cases (h : s.step info (.checkTombstone r) a = some (s', news)) :
    s' = s ∧ (news = [] ∨ news = [.check r]) := by
  unfold State.step at h
  cases a with
  | tombstone valid =>
    dsimp only at h
    split at h <;> cases h
    · exact ⟨rfl, .inl rfl⟩
    · exact ⟨rfl, .inr rfl⟩
  | _ => cases h

theorem check_cases (h : s.step info (.check r) a = some (s', news)) :
    s' = s ∧ (news = [] ∨ news = [.publish r]) := by
  unfold State.step at h
  cases a with
  | verdict accepted =>
    cases h
    cases accepted
    · exact ⟨rfl, .inl rfl⟩
    · exact ⟨rfl, .inr rfl⟩
  | _ => cases h

theorem publish_cases (h : s.step info (.publish r) a = some (s', news)) :
    s' = s ∧ news = [] ∨
      s.published r = false ∧
        s' = { s with
          byId := Function.update s.byId (info r).id (some r)
          published := Function.update s.published r true } ∧
        news = [.addConnection r] := by
  unfold State.step at h
  cases a with
  | go =>
    dsimp only at h
    split at h
    · cases h
    · rename_i hfresh
      split at h <;> cases h
      · exact .inl ⟨rfl, rfl⟩
      · exact .inr ⟨Bool.not_eq_true _ ▸ hfresh, rfl, rfl⟩
  | _ => cases h

theorem dispose_cases (h : s.step info (.dispose r) a = some (s', news)) :
    s' = s ∧ news = [] ∨ s' = { s with disposed := Function.update s.disposed r true } ∧ news = [.forget r] := by
  unfold State.step at h
  cases a with
  | go =>
    dsimp only at h
    split at h <;> cases h
    · exact .inl ⟨rfl, rfl⟩
    · exact .inr ⟨rfl, rfl⟩
  | _ => cases h

theorem entries_cases {t : Entries.Task} (h : s.step info (.entries t) a = some (s', news)) :
    ∃ b entries news', s.entries.step (fun r => (info r).function) t b = some (entries, news') ∧
      s' = { s with entries := entries } ∧ news = news'.map .entries := by
  unfold State.step at h
  cases a with
  | entries b =>
    obtain ⟨⟨entries, news'⟩, hstep, heq⟩ := Option.map_eq_some_iff.mp h
    cases heq
    exact ⟨b, entries, news', hstep, rfl, rfl⟩
  | _ => cases h

theorem step_published (h : s.step info t a = some (s', news)) (hr : s.published r = true) : s'.published r = true := by
  cases t with
  | publish r' =>
    obtain ⟨rfl, -⟩ | ⟨-, rfl, -⟩ := publish_cases h
    · exact hr
    · show Function.update s.published r' true r = true
      rw [Function.update_apply]
      split
      · rfl
      · exact hr
  | entries t =>
    obtain ⟨b, entries, news', -, rfl, -⟩ := entries_cases h
    exact hr
  | forget r' =>
    cases a <;> cases h
    split <;> exact hr
  | create r' =>
    obtain ⟨rfl, -⟩ := create_cases h
    exact hr
  | checkTombstone r' =>
    obtain ⟨rfl, -⟩ := checkTombstone_cases h
    exact hr
  | check r' =>
    obtain ⟨rfl, -⟩ := check_cases h
    exact hr
  | dispose r' =>
    obtain ⟨rfl, -⟩ | ⟨rfl, -⟩ := dispose_cases h <;> exact hr
  | _ =>
    cases a <;> cases h
    exact hr

/-- Only its own `publish` puts an observer into `by_id`. -/
theorem step_byId (h : s.step info t a = some (s', news)) {id : String} (hid : s'.byId id = some r) :
    s.byId id = some r ∨ s.published r = false ∧ news = [.addConnection r] := by
  cases t with
  | publish r' =>
    obtain ⟨rfl, -⟩ | ⟨hfresh, rfl, rfl⟩ := publish_cases h
    · exact .inl hid
    · change Function.update s.byId (info r').id (some r') id = some r at hid
      rw [Function.update_apply] at hid
      split at hid
      · obtain rfl := Option.some.inj hid
        exact .inr ⟨hfresh, rfl⟩
      · exact .inl hid
  | entries t =>
    obtain ⟨b, entries, news', -, rfl, -⟩ := entries_cases h
    exact .inl hid
  | forget r' =>
    cases a <;> cases h
    split at hid
    · change Function.update s.byId (info r').id none id = some r at hid
      rw [Function.update_apply] at hid
      split at hid
      · cases hid
      · exact .inl hid
    · exact .inl hid
  | create r' =>
    obtain ⟨rfl, -⟩ := create_cases h
    exact .inl hid
  | checkTombstone r' =>
    obtain ⟨rfl, -⟩ := checkTombstone_cases h
    exact .inl hid
  | check r' =>
    obtain ⟨rfl, -⟩ := check_cases h
    exact .inl hid
  | dispose r' =>
    obtain ⟨rfl, -⟩ | ⟨rfl, -⟩ := dispose_cases h <;> exact .inl hid
  | _ =>
    cases a <;> cases h
    exact .inl hid

/-- Whom `forget` has taken out of `by_id` does not come back. -/
theorem step_lost (h : s.step info t a = some (s', news)) (hr : s.published r = true ∧ s.byId (info r).id ≠ some r) :
    s'.published r = true ∧ s'.byId (info r).id ≠ some r := by
  refine ⟨step_published h hr.1, fun hid => ?_⟩
  rcases step_byId h hid with hid | ⟨hfresh, -⟩
  · exact hr.2 hid
  · rw [hr.1] at hfresh
    cases hfresh

theorem Task.Knows.stable {u : Task} (h : s.step info t a = some (s', news)) (hu : u.Knows info s) : u.Knows info s' := by
  cases u with
  | dispose r | forget r => exact step_published h hu
  | rememberTombstone r | leaveConnection r | dropConnection r | leaveTarget r | dropTarget r => exact step_lost h hu
  | entries t => exact ⟨hu.1, fun r hr => step_lost h (hu.2 r hr)⟩
  | _ => trivial

theorem step_entries (h : s.step info t a = some (s', news)) (ht : ∀ t', t ≠ .entries t') : s'.entries = s.entries := by
  cases t with
  | publish r =>
    obtain ⟨rfl, -⟩ | ⟨-, rfl, -⟩ := publish_cases h
    · rfl
    · rfl
  | entries t => exact absurd rfl (ht t)
  | forget r =>
    cases a <;> cases h
    split <;> rfl
  | create r' =>
    obtain ⟨rfl, -⟩ := create_cases h
    rfl
  | checkTombstone r' =>
    obtain ⟨rfl, -⟩ := checkTombstone_cases h
    rfl
  | check r' =>
    obtain ⟨rfl, -⟩ := check_cases h
    rfl
  | dispose r' =>
    obtain ⟨rfl, -⟩ | ⟨rfl, -⟩ := dispose_cases h <;> rfl
  | _ =>
    cases a <;> cases h
    rfl

theorem step_live (hlive : Live s.entries) (h : s.step info t a = some (s', news)) : Live s'.entries := by
  cases t with
  | entries t =>
    obtain ⟨b, entries, news', hstep, rfl, -⟩ := entries_cases h
    exact Entries.step_live hlive hstep
  | _ =>
    rw [step_entries h (by intro t'; nofun)]
    exact hlive

/-- What comes after a task knows what it is to know. -/
theorem step_knows (hknows : t.Knows info s) (h : s.step info t a = some (s', news)) {u : Task} (hu : u ∈ news) :
    u.Knows info s' := by
  cases t with
  | publish r =>
    obtain ⟨-, rfl⟩ | ⟨-, -, rfl⟩ := publish_cases h
    · cases hu
    · rw [List.mem_singleton.mp hu]
      trivial
  | entries t =>
    obtain ⟨b, entries, news', hstep, rfl, rfl⟩ := entries_cases h
    obtain ⟨u', hu', rfl⟩ := List.mem_map.mp hu
    obtain ⟨hattaches, hleaves⟩ := Entries.step_news hstep hu'
    refine ⟨fun key r hr => ?_, fun r hr => ?_⟩
    · rcases hattaches with hnone | hsame
      · rw [hnone] at hr
        cases hr
      · exact hknows.1 key r (hsame ▸ hr)
    · rcases hleaves with hnone | hsame
      · rw [hnone] at hr
        cases hr
      · exact hknows.2 r (hsame ▸ hr)
  | create r =>
    obtain ⟨-, rfl | rfl⟩ := create_cases h
    · cases hu
    · rw [List.mem_singleton.mp hu]
      trivial
  | checkTombstone r =>
    obtain ⟨-, rfl | rfl⟩ := checkTombstone_cases h
    · cases hu
    · rw [List.mem_singleton.mp hu]
      trivial
  | check r =>
    obtain ⟨-, rfl | rfl⟩ := check_cases h
    · cases hu
    · rw [List.mem_singleton.mp hu]
      trivial
  | addConnection r =>
    cases a <;> cases h
    rw [List.mem_singleton.mp hu]
    trivial
  | addTarget r =>
    cases a <;> cases h
    rw [List.mem_singleton.mp hu]
    refine ⟨fun key r' hr => ?_, nofun⟩
    cases hr
    rfl
  | dispose r =>
    obtain ⟨rfl, rfl⟩ | ⟨rfl, rfl⟩ := dispose_cases h
    · cases hu
    · rw [List.mem_singleton.mp hu]
      exact hknows
  | forget r =>
    cases a <;> cases h
    rw [List.mem_singleton.mp hu]
    split
    · exact ⟨hknows, by
        show Function.update s.byId (info r).id none (info r).id ≠ some r
        rw [Function.update_self]
        nofun⟩
    · rename_i hother
      exact ⟨hknows, hother⟩
  | rememberTombstone r | leaveConnection r | dropConnection r | leaveTarget r =>
    cases a <;> cases h
    rw [List.mem_singleton.mp hu]
    exact hknows
  | dropTarget r =>
    cases a <;> cases h
    rw [List.mem_singleton.mp hu]
    refine ⟨nofun, fun r' hr => ?_⟩
    cases hr
    exact hknows

theorem kept (info : ObserverRef → Observer) : (pool info).Kept (fun s => Live s.entries) fun s t => t.Knows info s where
  start := by
    intro s t _ hstart
    cases t with
    | dispose r => exact hstart
    | entries t =>
      change (t.isCall && t.attaches.isNone && t.leaves.isNone) = true at hstart
      simp only [Bool.and_eq_true, Option.isNone_iff_eq_none] at hstart
      refine ⟨fun key r hr => ?_, fun r hr => ?_⟩
      · rw [hstart.1.2] at hr
        cases hr
      · rw [hstart.2] at hr
        cases hr
    | create r => trivial
    | _ => cases hstart
  exec := fun hlive hknows h => ⟨step_live hlive h, fun _ hu => step_knows hknows h hu⟩
  stable := fun _ _ hu h => hu.stable h

/-! ### The indexes -/

/-- A task that owes an entry makes it, or leaves a task that owes it. -/
theorem step_owes (hlive : Live s.entries) (hknows : t.Knows info s) (h : s.step info t a = some (s', news))
    {index : Index} (howes : t.owes r index) : Holds info s' r index ∨ ∃ u ∈ news, u.owes r index := by
  cases t with
  | addConnection r' =>
    obtain rfl : r' = r := howes
    cases a <;> cases h
    cases index with
    | connection => exact .inl (Multimap.mem_add.mpr (.inr ⟨rfl, rfl⟩))
    | target => exact .inr ⟨_, List.mem_singleton_self _, rfl, nofun⟩
    | function => exact .inr ⟨_, List.mem_singleton_self _, rfl, nofun⟩
  | addTarget r' =>
    obtain ⟨rfl, hindex⟩ := howes
    cases a <;> cases h
    cases index with
    | connection => exact absurd rfl hindex
    | target => exact .inl (Multimap.mem_add.mpr (.inr ⟨rfl, rfl⟩))
    | function => exact .inr ⟨_, List.mem_singleton_self _, rfl, _, rfl⟩
  | entries t =>
    obtain ⟨rfl, key, hattaches⟩ := howes
    obtain rfl := hknows.1 key r hattaches
    obtain ⟨b, entries, news', hstep, rfl, rfl⟩ := entries_cases h
    rcases Entries.step_attaches hlive hattaches hstep with hlisted | ⟨u, hu, hattaches'⟩
    · exact .inl hlisted
    · exact .inr ⟨.entries u, List.mem_map_of_mem hu, rfl, _, hattaches'⟩
  | _ => cases howes

/-- An entry of an observer that can still be found is taken out by no task, while the condition is met. -/
theorem step_holds (hknows : t.Knows info s) {others : Multiset Task} (hspared : Spared info s t a others)
    (h : s.step info t a = some (s', news)) (hid : s.byId (info r).id = some r) {index : Index}
    (hholds : Holds info s r index) : Holds info s' r index ∨ ∃ u ∈ others, u.owes r index := by
  cases t with
  | publish r' =>
    obtain ⟨rfl, -⟩ | ⟨-, rfl, -⟩ := publish_cases h <;> exact .inl hholds
  | entries t =>
    obtain ⟨b, entries, news', hstep, rfl, -⟩ := entries_cases h
    cases index with
    | function =>
      refine .inl ((Entries.step_spares hstep fun hdetaches => ?_).listed _ hholds)
      exact (hknows.2 r hdetaches.leaves).2 hid
    | _ => exact .inl hholds
  | forget r' =>
    cases a <;> cases h
    split <;> exact .inl hholds
  | create r' =>
    obtain ⟨rfl, -⟩ := create_cases h
    exact .inl hholds
  | checkTombstone r' =>
    obtain ⟨rfl, -⟩ := checkTombstone_cases h
    exact .inl hholds
  | check r' =>
    obtain ⟨rfl, -⟩ := check_cases h
    exact .inl hholds
  | dispose r' =>
    obtain ⟨rfl, -⟩ | ⟨rfl, -⟩ := dispose_cases h <;> exact .inl hholds
  | addConnection r' =>
    cases a <;> cases h
    cases index with
    | connection => exact .inl (Multimap.mem_add.mpr (.inl hholds))
    | _ => exact .inl hholds
  | addTarget r' =>
    cases a <;> cases h
    cases index with
    | target => exact .inl (Multimap.mem_add.mpr (.inl hholds))
    | _ => exact .inl hholds
  | leaveConnection r' =>
    cases a <;> cases h
    cases index with
    | connection =>
      by_cases hboth : (info r).connection = (info r').connection ∧ (info r).id = (info r').id
      · exact .inr (hspared r (hboth.2 ▸ hid) hboth.1)
      · exact .inl (Multimap.mem_take.mpr ⟨hholds, hboth⟩)
    | _ => exact .inl hholds
  | leaveTarget r' =>
    cases a <;> cases h
    cases index with
    | target =>
      by_cases hboth : (info r).target = (info r').target ∧ (info r).id = (info r').id
      · exact .inr (hspared r (hboth.2 ▸ hid) hboth.1)
      · exact .inl (Multimap.mem_take.mpr ⟨hholds, hboth⟩)
    | _ => exact .inl hholds
  | dropConnection r' =>
    cases a <;> cases h
    cases index with
    | connection =>
      refine .inl ?_
      show _ ∈ Multimap.values (Multimap.dropEmpty _ _) _
      rw [Multimap.values_dropEmpty]
      exact hholds
    | _ => exact .inl hholds
  | dropTarget r' =>
    cases a <;> cases h
    cases index with
    | target =>
      refine .inl ?_
      show _ ∈ Multimap.values (Multimap.dropEmpty _ _) _
      rw [Multimap.values_dropEmpty]
      exact hholds
    | _ => exact .inl hholds
  | rememberTombstone r' =>
    cases a <;> cases h
    exact .inl hholds

theorem owed (info : ObserverRef → Observer) :
    (pool info).Owed (Spared info) (fun s => Live s.entries) (fun s t => t.Knows info s)
      (fun s (i : ObserverRef × Index) => s.byId (info i.1).id = some i.1 → Holds info s i.1 i.2)
      fun t i => t.owes i.1 i.2 where
  exec := by
    rintro s t a s' news others ⟨r, index⟩ hlive hknows hspared h hcover
    rcases hcover with hholds | howes
    · by_cases hid' : s'.byId (info r).id = some r
      · rcases step_byId h hid' with hid | ⟨-, rfl⟩
        · rcases step_holds hknows hspared h hid (hholds hid) with hholds' | hothers
          · exact .inl fun _ => hholds'
          · exact .inr (.inr hothers)
        · exact .inr (.inl ⟨_, List.mem_singleton_self _, rfl⟩)
      · exact .inl fun hid => absurd hid hid'
    · rcases step_owes hlive hknows h howes with hholds' | hnews
      · exact .inl fun _ => hholds'
      · exact .inr (.inl hnews)

/-- `publish` of the observer is under way. -/
def Task.publishes (r : ObserverRef) : Task → Prop
  | .addConnection r' | .addTarget r' => r' = r
  | .entries t => ∃ key, t.attaches = some (key, r)
  | _ => False

theorem Task.owes.publishes {index : Index} (h : t.owes r index) : t.publishes r := by
  cases t with
  | addConnection r' => exact h
  | addTarget r' => exact h.1
  | entries t => exact h.2
  | _ => cases h

/-- In the runs in which no `forget` takes out what a newer observer of the same id has put in, an observer that was
inserted into `by_id`, and is there, is in the other indexes once its `publish` has ended. -/
theorem published_holds {flags : ObserverRef → Flags} {c : Config State Task}
    (hc : ((pool info).guarded (Spared info) (.new flags)).Reachable c)
    (hlive : c.state.byId (info r).id = some r) (hended : ∀ t ∈ c.tasks, ¬t.publishes r) (index : Index) :
    Holds info c.state r index := by
  have hnew : ∀ i : ObserverRef × Index, (State.new flags).byId (info i.1).id = some i.1 →
      Holds info (.new flags) i.1 i.2 := by
    intro i hid
    cases hid
  have howed := (owed info).reachable (kept info) (Entries.live_new flags) hnew hc (r, index)
  rcases howed with hholds | ⟨t, ht, howes⟩
  · exact hholds hlive
  · exact absurd howes.publishes (hended t ht)

/-! #### An id that is taken again: after `forget` has ended, and before -/

/-- All observers are made with the same. -/
def sameOrders : ObserverRef → Observer := fun _ => ⟨"o", 1, ("default", "log"), ("default", "orders")⟩

def connectedFlags : ObserverRef → Flags := fun _ => ⟨true, true, true, true, none, false, false, none, none⟩

/-- `create` finds neither the id nor a tombstone that is valid, and `publish` goes through. -/
def observed (r : ObserverRef) : List (Pool.Turn Task Act) :=
  [.start (.create r), .exec 0 .go, .exec 0 (.tombstone false), .exec 0 (.verdict true), .exec 0 .go, .exec 0 .go,
    .exec 0 .go, .exec 0 (.entries .go), .exec 0 (.entries (.owner (some none)))]

/-- From the tombstone to the end of `forget`. -/
def forgotten : List (Pool.Turn Task Act) :=
  [.exec 0 .go, .exec 0 .go, .exec 0 .go, .exec 0 .go, .exec 0 .go, .exec 0 (.entries .go), .exec 0 (.entries .go),
    .exec 0 (.entries .go)]

def takenAfter : List (Pool.Turn Task Act) :=
  observed 0 ++ [.start (.dispose 0), .exec 0 .go, .exec 0 .go] ++ forgotten ++ observed 1

/-- The new observer is complete when the old one has only left `by_id`. -/
def takenBefore : List (Pool.Turn Task Act) :=
  observed 0 ++ [.start (.dispose 0), .exec 0 .go, .exec 0 .go] ++ observed 1 ++ forgotten

/-- Nobody has the id. -/
def isFree (info : ObserverRef → Observer) (s : State) (t : Task) (_ : Act) (_ : List Task) : Bool :=
  match t with
  | .leaveConnection r | .leaveTarget r => (s.byId (info r).id).isNone
  | _ => true

theorem spared_of_isFree {others : List Task} (h : isFree info s t a others = true) : Spared info s t a ↑others := by
  cases t with
  | leaveConnection r | leaveTarget r =>
    intro r' hid
    rw [Option.isNone_iff_eq_none.mp h] at hid
    cases hid
  | _ => trivial

/-- What is left of a schedule, if it can be played. -/
def ends (c : Option (State × List Task)) : Option (Option ObserverRef × List String × Nat) :=
  c.map fun c => (c.1.byId "o", c.1.byConnection.values 1, c.2.length)

theorem published_holds_again : ∃ c : Config State Task,
    ((pool sameOrders).guarded (Spared sameOrders) (.new connectedFlags)).Reachable c ∧
      c.state.byId "o" = some 1 ∧ ∀ index, Holds sameOrders c.state 1 index := by
  have hends : ends (Pool.play Task.starts (State.step sameOrders) (isFree sameOrders) (.new connectedFlags) []
      takenAfter) = some (some 1, ["o"], 0) := by decide
  obtain ⟨c, hc, hend⟩ := Option.map_eq_some_iff.mp hends
  simp only [Prod.mk.injEq, List.length_eq_zero_iff] at hend
  have hreach := Pool.play_guarded (P := pool sameOrders) Task.starts (State.step sameOrders) (isFree sameOrders)
    (.new connectedFlags) takenAfter (fun _ _ => id) (fun _ _ _ _ _ => id) (fun _ _ _ _ => spared_of_isFree) hc
  refine ⟨_, hreach, hend.1, published_holds hreach hend.1 ?_⟩
  rw [hend.2.2]
  nofun

theorem forget_damages : ¬∀ c : Config State Task, ((pool sameOrders).system (.new connectedFlags)).Reachable c →
    c.tasks = 0 → ∀ r, c.state.byId (sameOrders r).id = some r → ∀ index, Holds sameOrders c.state r index := by
  intro hall
  have hends : ends (Pool.play Task.starts (State.step sameOrders) (fun _ _ _ _ => true) (.new connectedFlags) []
      takenBefore) = some (some 1, [], 0) := by decide
  obtain ⟨c, hc, hend⟩ := Option.map_eq_some_iff.mp hends
  simp only [Prod.mk.injEq, List.length_eq_zero_iff] at hend
  have hreach := Pool.play_reachable (P := pool sameOrders) Task.starts (State.step sameOrders) (.new connectedFlags)
    takenBefore (fun _ _ => id) (fun _ _ _ _ _ => id) hc
  have hholds : "o" ∈ c.1.byConnection.values 1 := by
    refine hall _ hreach ?_ 1 hend.1 .connection
    rw [hend.2.2]
    rfl
  rw [hend.2.1] at hholds
  cases hholds

end Iii.Race
