import Iii.Dispatch.Events
import Mathlib.Data.Multiset.Bind
import Mathlib.Tactic.Abel

/-! Every event is accounted for once.

The events that were asked for are those in the log and those still in the hands of some task, each counted once: every
step of every task keeps the balance, on each of the ways out of `begin`, `complete`, `enqueue`, `evaluate`, `activate`
and `report`. An event in nobody's hands thus has one fate. What the steps of one observer do is known from the
observer alone, since the tasks that are about it are a run of its own. -/
namespace Iii.Dispatch
open Lib

/-! ### One observer -/

section One
variable {P : Policy} {o : Obs} {t : Task} {next : Next}

theorem Updates.asks {flags : Flags} (h : Updates P o t flags) : t.asks = false := by
  cases h <;> rfl

theorem Passes.asks {news : List Task} {M : Type} [AddCommMonoid M] (h : Passes P o t news) (ht : t.asks = true) (x : M) :
    (news.map fun u => if u.asks then x else 0).sum = x := by
  cases h with
  | goesOn entry | shallow entry | loopGuard entry | inTime entry | expired entry | spent entry | refused entry =>
    cases entry <;> simp [Task.asks] at ht ⊢
  | inactive => simp [Task.asks]
  | _ => cases ht

/-- A task with an event hands it on, or sees what becomes of it. -/
theorem Moves.asks {M : Type} [AddCommMonoid M] (h : Moves P o t next) (ht : t.asks = true) (x : M) :
    (next.2.2.elim 0 fun _ => x) + (next.2.1.map fun u => if u.asks then x else 0).sum = x := by
  cases h with
  | pass h => exact (zero_add _).trans (h.asks ht x)
  | update h =>
    rw [h.asks] at ht
    cases ht
  | take entry => cases entry <;> simp [Task.asks] at ht ⊢
  | slot | enqueue | giveBack => simp [Task.asks]
  | drop => simp [Obs.drop]
  | _ => cases ht

/-- What became of an event is written down by the step that decided it. -/
theorem Moves.outcomes (h : Moves P o t next) : next.1.outcomes = o.outcomes ++ next.2.2.toList := by
  cases h with
  | next | release =>
    unfold Obs.nextQueued
    split <;> exact (List.append_nil _).symm
  | slot | ownSlot | enqueue | drop => rfl
  | _ => exact (List.append_nil _).symm

end One

/-! ### What a step does -/

section Many
variable {ι D : Type} [DecidableEq ι] {observers : ι → Observer D} {s : Engine ι} {t : Work ι D}
  {next : Engine ι × List (Work ι D)} {c : Config (Engine ι) (Work ι D)} {k : Nat}

/-- The events in the hands of a task. -/
def Work.tags : Work ι D → List (Tag ι)
  | .observer _ tag t => if t.asks then tag.toList else []
  | .begin _ | .report .. => []
  | .call n ps _ | .enqueue n ps .. | .send n ps .. | .queued n ps .. | .evaluate n ps .. | .dropAll n ps _ =>
    ps.map (.call n)
  | .matched n ids .. | .dropMatched n ids _ => ids.map (.item n)

def Work.isObserver : Work ι D → Bool
  | .observer .. => true
  | _ => false

/-- An event is for this observer. -/
def Tag.names (observers : ι → Observer D) (p : ι) : Tag ι → Prop
  | .call _ q => q = p
  | .item _ id => (observers p).id = id

/-- The fates other than those that an observer sees to. -/
inductive Fate.Elsewhere : Tag ι → Fate ι → Prop where
  | unmatched (tag : Tag ι) : Elsewhere tag .unmatched
  | functionDrop (n : Nat) (id : String) (reason : Reason) : Elsewhere (.item n id) (.functionDrop reason)

inductive Does (observers : ι → Observer D) (s : Engine ι) : Work ι D → Engine ι × List (Work ι D) → Prop where
  | observer (p : ι) (tag : Option (Tag ι)) {t : Task} {a : Act} {next : Next}
      (h : step (observers p).policy (s.observer p) t a = some next) :
      Does observers s (.observer p tag t) (s.after p (if t.asks then tag else none) next.1 next.2.2,
        next.2.1.map fun u => .observer p (if u.asks then if t.asks then tag else none else none) u)
  | begin (set : ActiveSet ι) (admitted : Bool) :
      Does observers s (.begin set) (s.ask (set.observers.map (.call s.begun)), [.call s.begun set.observers admitted])
  | report {u : Work ι D} (matched : List String) (status : Option Bool) (drops : List Reason)
      (hu : u.isObserver = false) (htags : u.tags = (distinct [] matched).map (.item s.begun)) :
      Does observers s (.report matched status)
        ({ s.ask ((distinct [] matched).map (.item s.begun)) with
            log := s.log ++ drops.map fun reason => (none, .functionDrop reason) }, [u])
  | hand {t u : Work ι D} (bytes : Nat) (ht : t.isObserver = false) (hu : u.isObserver = false)
      (htags : t.tags = u.tags) : Does observers s t ({ s with queuedBytes := bytes }, [u])
  | ended {t : Work ι D} (ht : t.isObserver = false) (htags : t.tags = []) : Does observers s t (s, [])
  | fate {t u : Work ι D} {tag : Tag ι} {fate : Fate ι} (ht : t.isObserver = false) (hu : u.isObserver = false)
      (htags : t.tags = tag :: u.tags) (h : Fate.Elsewhere tag fate) :
      Does observers s t (s.write (some tag) fate, [u])
  | turn {t u : Work ι D} {tag : Tag ι} {p : ι} {v : Task} (ht : t.isObserver = false) (hu : u.isObserver = false)
      (htags : t.tags = tag :: u.tags) (hv : v.asks = true) (hstart : v.isStart = true) (hp : tag.names observers p) :
      Does observers s t (s, [.observer p (some tag) v, u])

theorem Does.dropMatched (matched : List String) (status : Option Bool) (reason : Reason) :
    Does observers s (.report matched status)
      (if (distinct [] matched).isEmpty then
          (s.ask ((distinct [] matched).map (.item s.begun))).write none (.functionDrop reason)
        else s.ask ((distinct [] matched).map (.item s.begun)),
        [.dropMatched s.begun (distinct [] matched) reason]) := by
  split
  · exact .report matched status [reason] rfl rfl
  · have h : Does observers s _ _ := .report (u := .dropMatched s.begun (distinct [] matched) reason)
      matched status [] rfl rfl
    rwa [List.map_nil, List.append_nil] at h

theorem work_does {a : Find ι D} (h : work observers s t a = some next) : Does observers s t next := by
  unfold work at h
  split at h
  · obtain ⟨next, hstep, rfl⟩ := Option.map_eq_some_iff.mp h
    exact .observer _ _ hstep
  · cases h; exact .begin _ _
  · cases h; exact .hand s.queuedBytes rfl rfl rfl
  · cases h
    split <;> exact .hand s.queuedBytes rfl rfl rfl
  · cases h; exact .hand s.queuedBytes rfl rfl rfl
  · split at h
    · cases h; exact .hand s.queuedBytes rfl rfl rfl
    · split at h <;> cases h <;> exact .hand _ rfl rfl rfl
  · cases h; exact .hand s.queuedBytes rfl rfl rfl
  · cases h; exact .hand _ rfl rfl rfl
  · cases h; exact .hand _ rfl rfl rfl
  · cases h; exact .hand _ rfl rfl rfl
  · cases h; exact .ended rfl rfl
  · split at h <;> cases h
    · exact .turn rfl rfl rfl rfl rfl rfl
    · exact .fate rfl rfl rfl (.unmatched _)
  · cases h; exact .ended rfl rfl
  · cases h; exact .turn rfl rfl rfl rfl rfl rfl
  · rename_i matched status owner auto
    dsimp only at h
    split at h
    · split at h
      · rename_i success
        cases h
        have h : Does observers s _ _ := .report (u := .matched s.begun (distinct [] matched) auto success)
          matched (some success) [] rfl rfl
        rwa [List.map_nil, List.append_nil] at h
      · cases h
        exact .dropMatched ..
    · cases h
      exact .dropMatched ..
  · cases h; exact .ended rfl rfl
  · cases h; exact .fate rfl rfl rfl (.functionDrop ..)
  · split at h
    · cases h
    · rename_i hid
      split at h <;> cases h
      · exact .fate rfl rfl rfl (.unmatched _)
      · exact .turn rfl rfl rfl rfl rfl (not_not.mp hid)
  · cases h; exact .ended rfl rfl
  · cases h; exact .fate rfl rfl rfl (.functionDrop ..)
  · split at h
    · cases h
    · rename_i hid
      cases h
      exact .turn rfl rfl rfl rfl rfl (not_not.mp hid)
  · cases h

/-! ### The balance -/

/-- The events whose fate is known. -/
def Engine.told (s : Engine ι) : List (Tag ι) := s.log.filterMap (·.1)

theorem Engine.after_told (s : Engine ι) (p : ι) (tag : Option (Tag ι)) (o : Obs) (outcome : Option Outcome) :
    (↑(s.after p tag o outcome).told : Multiset (Tag ι)) = ↑s.told + outcome.elim 0 fun _ => ↑tag.toList := by
  cases outcome <;> cases tag <;> simp [Engine.told, Engine.after, ← Multiset.coe_add]

omit [DecidableEq ι] in
theorem observer_tags (p : ι) (tag : Option (Tag ι)) (ts : List Task) :
    ((ts.map fun u => (.observer p (if u.asks then tag else none) u : Work ι D)).map
        fun u => (↑u.tags : Multiset (Tag ι))).sum =
      (ts.map fun u => if u.asks then (↑tag.toList : Multiset (Tag ι)) else 0).sum := by
  rw [List.map_map]
  congr 1
  refine List.map_congr_left fun u _ => ?_
  simp only [Function.comp_apply, Work.tags]
  split <;> rfl

theorem Does.balance (h : Does observers s t next) (n : Multiset (Tag ι))
    (hsum : (↑s.asked : Multiset (Tag ι)) = ↑s.told + (↑t.tags + n)) :
    (↑next.1.asked : Multiset (Tag ι)) =
      ↑next.1.told + ((next.2.map fun u => (↑u.tags : Multiset (Tag ι))).sum + n) := by
  cases h with
  | @observer p tag t a next h =>
    rw [observer_tags, Engine.after_told]
    cases hasks : t.asks with
    | false =>
      rw [Work.tags, hasks] at hsum
      have hnone : (next.2.1.map fun u => if u.asks then ((none : Option (Tag ι)).toList : Multiset (Tag ι)) else 0).sum = 0 :=
        List.sum_eq_zero (by simp)
      simp only [Bool.false_eq_true, if_false] at hsum ⊢
      rw [hnone]
      cases next.2.2 <;> simpa [Engine.after] using hsum
    | true =>
      rw [Work.tags, hasks] at hsum
      have hevent := (step_moves h).asks hasks (↑tag.toList : Multiset (Tag ι))
      simp only [if_true] at hsum ⊢
      rw [← hevent, add_assoc, ← add_assoc] at hsum
      exact hsum
  | begin set admitted =>
    simp only [Work.tags, Engine.ask, Engine.told, ← Multiset.coe_add, List.map_cons, List.map_nil, List.sum_cons,
      List.sum_nil, Multiset.coe_nil] at hsum ⊢
    rw [hsum]
    abel
  | @report u matched status drops _ htags =>
    have hnone : (drops.map fun reason => ((none : Option (Tag ι)), (.functionDrop reason : Fate ι))).filterMap (·.1) = [] := by
      simp
    have hsum' : (↑s.asked : Multiset (Tag ι)) = ↑s.told + n := hsum.trans (by rw [Work.tags, Multiset.coe_nil, zero_add])
    rw [Engine.told, List.filterMap_append, hnone, List.append_nil, List.map_singleton, List.sum_singleton, htags]
    rw [Engine.ask, ← Multiset.coe_add, hsum', Engine.told]
    abel
  | hand _ _ _ htags =>
    rw [htags] at hsum
    rw [List.map_singleton, List.sum_singleton]
    exact hsum
  | ended _ htags =>
    rw [htags] at hsum
    exact hsum
  | @fate t u tag fate _ _ htags =>
    have htold : (↑(s.write (some tag) fate).told : Multiset (Tag ι)) = ↑s.told + {tag} := by
      simp [Engine.told, Engine.write, ← Multiset.coe_add]
    rw [htags, ← Multiset.cons_coe, ← Multiset.singleton_add] at hsum
    rw [htold, List.map_singleton, List.sum_singleton]
    exact hsum.trans (by abel)
  | @turn t u tag p v _ _ htags hv =>
    rw [htags, ← Multiset.cons_coe, ← Multiset.singleton_add] at hsum
    simpa [Work.tags, hv, add_assoc] using hsum

theorem events_balanced (observers : ι → Observer D) :
    (events observers).Balanced (fun s => (↑s.asked : Multiset (Tag ι))) (fun s => ↑s.told) fun t => ↑t.tags where
  start := by
    intro _ t h
    cases t with
    | observer p tag t =>
      cases tag with
      | none => simp [Work.tags]
      | some _ => cases h
    | begin | report => rfl
    | _ => cases h
  exec := fun h => (work_does h).balance

/-! ### Each event is asked for once -/

theorem distinct_spec (seen ids : List String) :
    (distinct seen ids).Nodup ∧ ∀ id, id ∈ distinct seen ids ↔ id ∈ ids ∧ id ∉ seen := by
  induction ids generalizing seen with
  | nil => simp [distinct]
  | cons id ids ih =>
    unfold distinct
    split
    · rename_i hseen
      refine ⟨(ih seen).1, fun id' => ?_⟩
      rw [(ih seen).2, List.mem_cons]
      grind -ring -linarith
    · obtain ⟨hnodup, hmem⟩ := ih (id :: seen)
      refine ⟨List.nodup_cons.mpr ⟨fun h => ((hmem id).mp h).2 List.mem_cons_self, hnodup⟩, fun id' => ?_⟩
      rw [List.mem_cons, hmem, List.mem_cons, List.mem_cons]
      grind -ring -linarith

def Tag.number : Tag ι → Nat
  | .call n _ | .item n _ => n

structure Engine.Numbered (s : Engine ι) : Prop where
  lt : ∀ tag ∈ s.asked, tag.number < s.begun
  nodup : s.asked.Nodup

omit [DecidableEq ι] in
theorem Engine.Numbered.ask (h : s.Numbered) {tags : List (Tag ι)} (htags : tags.Nodup)
    (hnumber : ∀ tag ∈ tags, tag.number = s.begun) : (s.ask tags).Numbered := by
  refine ⟨fun tag htag => ?_, List.nodup_append.mpr ⟨h.nodup, htags, ?_⟩⟩
  · rcases List.mem_append.mp htag with hold | hnew
    · exact Nat.lt_succ_of_lt (h.lt tag hold)
    · exact Nat.lt_succ_of_le (hnumber tag hnew).le
  · rintro tag hold _ hnew rfl
    exact (h.lt tag hold).ne (hnumber tag hnew)

theorem Does.numbered (h : Does observers s t next) (hs : s.Numbered) : next.1.Numbered := by
  cases h with
  | begin set =>
    refine hs.ask (set.nodup.map fun p q h => by cases h; rfl) fun tag htag => ?_
    obtain ⟨p, _, rfl⟩ := List.mem_map.mp htag
    rfl
  | report matched =>
    have hask : (s.ask ((distinct [] matched).map (.item s.begun))).Numbered := by
      refine hs.ask ((distinct_spec [] matched).1.map fun p q h => by cases h; rfl) fun tag htag => ?_
      obtain ⟨id, _, rfl⟩ := List.mem_map.mp htag
      rfl
    exact ⟨hask.lt, hask.nodup⟩
  | _ => exact ⟨hs.lt, hs.nodup⟩

/-! ### Each fate is of the observer that the event was for -/

/-- A fate that may be written down for an event. -/
inductive Fate.Of (observers : ι → Observer D) : Tag ι → Fate ι → Prop where
  | elsewhere {tag : Tag ι} {fate : Fate ι} (h : Fate.Elsewhere tag fate) : Of observers tag fate
  | outcome {tag : Tag ι} {p : ι} (outcome : Outcome) (h : tag.names observers p) :
      Of observers tag (.outcome p outcome)

def Engine.Fair (observers : ι → Observer D) (s : Engine ι) : Prop :=
  ∀ tag fate, (some tag, fate) ∈ s.log → Fate.Of observers tag fate

/-- A task of an observer is about an event for that observer. -/
def Work.named (observers : ι → Observer D) : Work ι D → Prop
  | .observer p tag _ => ∀ e, tag = some e → e.names observers p
  | _ => True

omit [DecidableEq ι] in
theorem Work.named_of (h : t.isObserver = false) : t.named observers := by
  cases t with
  | observer => cases h
  | _ => trivial

theorem Does.fair (h : Does observers s t next) (hs : s.Fair observers) (ht : t.named observers) :
    next.1.Fair observers ∧ ∀ u ∈ next.2, u.named observers := by
  cases h with
  | @observer p tag t a next h =>
    refine ⟨fun e fate he => ?_, fun u hu => ?_⟩
    · rcases List.mem_append.mp he with hold | hnew
      · exact hs e fate hold
      · obtain ⟨outcome, _, heq⟩ := List.mem_map.mp hnew
        obtain ⟨htag, rfl⟩ := Prod.mk.inj heq
        exact .outcome outcome (ht e (Option.ite_none_right_eq_some.mp htag).2)
    · obtain ⟨v, _, rfl⟩ := List.mem_map.mp hu
      exact fun e he => ht e (Option.ite_none_right_eq_some.mp (Option.ite_none_right_eq_some.mp he).2).2
  | begin set => exact ⟨hs, by simp [Work.named]⟩
  | report _ _ _ hu => 
    refine ⟨fun e fate he => ?_, ?_⟩
    · rcases List.mem_append.mp he with hold | hnew
      · exact hs e fate hold
      · simp at hnew
    · simpa using Work.named_of hu
  | hand _ _ hu => exact ⟨hs, by simpa using Work.named_of hu⟩
  | ended => exact ⟨hs, by simp⟩
  | fate _ hu _ h => 
    refine ⟨fun e fate he => ?_, by simpa using Work.named_of hu⟩
    rcases List.mem_append.mp he with hold | hnew
    · exact hs e fate hold
    · cases List.mem_singleton.mp hnew
      exact .elsewhere h
  | turn _ hu _ _ _ hp => 
    refine ⟨hs, fun v hv => ?_⟩
    rcases List.mem_cons.mp hv with rfl | hv
    · exact fun e he => Option.some.inj he ▸ hp
    · exact List.mem_singleton.mp hv ▸ Work.named_of hu

theorem fair (h : ((events observers).system (.new k)).Reachable c) : c.state.Numbered ∧ c.state.Fair observers := by
  have hkept : (events observers).Kept (fun s => s.Numbered ∧ s.Fair observers) fun _ t => t.named observers :=
    { start := by
        intro _ t _ ht
        cases t with
        | observer p tag t =>
          cases tag with
          | none => exact fun _ h => nomatch h
          | some _ => cases ht
        | _ => trivial
      exec := fun ⟨hnumbered, hfair⟩ ht h =>
        ⟨⟨(work_does h).numbered hnumbered, ((work_does h).fair hfair ht).1⟩, ((work_does h).fair hfair ht).2⟩
      stable := fun _ _ hu _ => hu }
  refine (hkept.reachable (s := .new k) ⟨⟨?_, List.nodup_nil⟩, ?_⟩ h).1
  · exact fun tag htag => nomatch htag
  · exact fun tag fate hfate => nomatch hfate

/-! ### The tasks of one observer are a run of its own -/

def Work.of (p : ι) : Work ι D → Multiset Task
  | .observer q _ t => if q = p then {t} else 0
  | _ => 0

/-- What there is of one observer. -/
def only (p : ι) (c : Config (Engine ι) (Work ι D)) : Config Obs Task :=
  ⟨c.state.observer p, (c.tasks.map (Work.of p)).sum⟩

theorem Work.of_eq_zero (p : ι) (h : t.isObserver = false) : t.of p = 0 := by
  cases t with
  | observer => cases h
  | _ => rfl

theorem Work.of_observer (p q : ι) (tag : Option (Tag ι)) (t : Task) :
    (.observer q tag t : Work ι D).of p = if q = p then {t} else 0 := rfl

theorem observer_of (p q : ι) (tag : Option (Tag ι)) (ts : List Task) :
    ((ts.map fun u => (.observer q (if u.asks then tag else none) u : Work ι D)).map (Work.of p)).sum =
      if q = p then (↑ts : Multiset Task) else 0 := by
  induction ts with
  | nil => split <;> rfl
  | cons u ts ih =>
    rw [List.map_cons, List.map_cons, List.sum_cons, ih, Work.of_observer]
    split <;> rfl

theorem Does.only (p : ι) (h : Does observers s t next) (ts : Multiset Task) :
    Relation.ReflTransGen (pool (observers p).policy).Step ⟨s.observer p, t.of p + ts⟩
      ⟨next.1.observer p, (next.2.map (Work.of p)).sum + ts⟩ := by
  cases h with
  | @observer q tag t a next h =>
    rw [observer_of]
    by_cases hq : q = p
    · subst hq
      have hexec : (pool (observers q).policy).Exec (s.observer q) t a next.1 next.2.1 := ⟨next.2.2, h⟩
      simpa [Work.of, Engine.after] using Relation.ReflTransGen.single (Pool.Step.exec ts hexec)
    · have hother : (s.after q (if t.asks then tag else none) next.1 next.2.2).observer p = s.observer p :=
        Function.update_of_ne (Ne.symm hq) _ _
      rw [hother, if_neg hq, Work.of, if_neg hq]
  | begin set => exact .refl
  | @report u _ _ _ hu =>
    have hlist : ([u].map (Work.of p)).sum = 0 := by simpa using Work.of_eq_zero p hu
    rw [hlist]
    exact .refl
  | @hand t u _ ht hu =>
    have hlist : ([u].map (Work.of p)).sum = 0 := by simpa using Work.of_eq_zero p hu
    rw [hlist, Work.of_eq_zero p ht]
  | ended ht =>
    rw [Work.of_eq_zero p ht]
    exact .refl
  | @fate t u _ _ ht hu =>
    have hlist : ([u].map (Work.of p)).sum = 0 := by simpa using Work.of_eq_zero p hu
    rw [hlist, Work.of_eq_zero p ht]
    exact .refl
  | @turn t u tag q v ht hu _ _ hstart =>
    have hlist : ([(.observer q (some tag) v : Work ι D), u].map (Work.of p)).sum = if q = p then {v} else 0 := by
      simp [Work.of_eq_zero p hu, Work.of_observer]
    rw [hlist, Work.of_eq_zero p ht]
    split
    · rw [zero_add, Multiset.singleton_add]
      exact .single (.start ts hstart)
    · exact .refl

/-- What is proved of one observer holds of each. -/
theorem only_reachable (p : ι) (h : ((events observers).system (.new k)).Reachable c) :
    ((pool (observers p).policy).system .new).Reachable (only p c) := by
  refine System.Reachable.invariant (I := fun c => ((pool (observers p).policy).system .new).Reachable (only p c))
    ?_ ?_ h
  · rintro _ rfl
    exact .init rfl
  · rintro c c' - ⟨c₀, hinit, hrun⟩ hstep
    refine ⟨c₀, hinit, hrun.trans ?_⟩
    cases hstep with
    | @start s t ts hstart =>
      cases t with
      | observer q tag t =>
        cases tag with
        | none =>
          rw [Dispatch.only, Dispatch.only, Multiset.map_cons, Multiset.sum_cons, Work.of_observer]
          split
          · exact .single (.start _ hstart)
          · rw [zero_add]
        | some _ => cases hstart
      | begin | report =>
        rw [Dispatch.only, Dispatch.only, Multiset.map_cons, Multiset.sum_cons, Work.of_eq_zero p rfl, zero_add]
      | _ => cases hstart
    | exec ts hexec =>
      have hone := (work_does hexec).only p (ts.map (Work.of p)).sum
      rw [Dispatch.only, Dispatch.only, Multiset.map_cons, Multiset.sum_cons, Multiset.map_add, Multiset.sum_add,
        Multiset.map_coe, Multiset.sum_coe]
      exact hone

/-! ### The counters -/

def Fate.outcomeOf (p : ι) : Fate ι → Option Outcome
  | .outcome q r => if q = p then some r else none
  | _ => none

/-- What the log says of an observer. -/
def Engine.outcomes (s : Engine ι) (p : ι) : List Outcome := s.log.filterMap (·.2.outcomeOf p)

theorem Does.outcomes (h : Does observers s t next) (hs : ∀ p, (s.observer p).outcomes = s.outcomes p) (p : ι) :
    (next.1.observer p).outcomes = next.1.outcomes p := by
  cases h with
  | @observer q tag t a next h =>
    have hnew := (step_moves h).outcomes
    by_cases hq : q = p
    · subst hq
      have hmap : (next.2.2.toList.map fun outcome => (if t.asks then tag else none, Fate.outcome q outcome)).filterMap
          (·.2.outcomeOf q) = next.2.2.toList := by
        cases next.2.2 <;> simp [Fate.outcomeOf]
      simp only [Engine.after, Function.update_self, hnew, hs, Engine.outcomes, List.filterMap_append, hmap]
    · have hmap : (next.2.2.toList.map fun outcome => (if t.asks then tag else none, Fate.outcome q outcome)).filterMap
          (·.2.outcomeOf p) = [] := by
        cases next.2.2 <;> simp [Fate.outcomeOf, hq]
      simp only [Engine.after, Function.update_of_ne (Ne.symm hq), hs, Engine.outcomes, List.filterMap_append, hmap,
        List.append_nil]
  | report matched status drops =>
    have hmap : (drops.map fun reason => ((none : Option (Tag ι)), (.functionDrop reason : Fate ι))).filterMap
        (·.2.outcomeOf p) = [] := by
      simp [Fate.outcomeOf]
    rw [Engine.outcomes, List.filterMap_append, hmap, List.append_nil]
    exact hs p
  | fate _ _ _ h =>
    rw [Engine.outcomes, Engine.write, List.filterMap_append]
    cases h <;> exact (hs p).trans (List.append_nil _).symm
  | _ => exact hs p

theorem outcomes_eq (h : ((events observers).system (.new k)).Reachable c) (p : ι) :
    (c.state.observer p).outcomes = c.state.outcomes p :=
  Pool.reachable_invariant (J := fun s : Engine ι => ∀ p, (s.observer p).outcomes = s.outcomes p)
    (fun hs h => (work_does h).outcomes hs) (fun _ => rfl) h p

theorem count_outcomes (s : Engine ι) (p : ι) (outcome : Outcome) :
    (s.outcomes p).count outcome = s.log.countP fun e => e.2 = .outcome p outcome := by
  rw [Engine.outcomes, List.count_filterMap]
  refine List.countP_congr fun e _ => ?_
  cases h : e.2 with
  | outcome q r => by_cases hq : q = p <;> simp [Fate.outcomeOf, hq]
  | _ => simp [Fate.outcomeOf]

/-! ### Altogether -/

/-- What holds of the events and the counters. -/
structure Accounted (observers : ι → Observer D) (c : Config (Engine ι) (Work ι D)) : Prop where
  /-- An event that no task has in hand has one fate, and it is one for this event: `on` or the filter did not match,
  or the observer accepted or dropped it, or, of a report, the function dropped it. -/
  once : ∀ tag ∈ c.state.asked, (∀ t ∈ c.tasks, tag ∉ t.tags) →
    ∃ fate, c.state.log.filter (fun e => e.1 = some tag) = [(some tag, fate)] ∧ Fate.Of observers tag fate
  /-- The drop counters of an observer: one for each event that it dropped, and those that it dropped after they were
  accepted, with its queue or because the target does not take so much. -/
  drops : ∀ p r, (c.state.observer p).drops r + ((only p c).tasks.map (Task.uncounted r)).sum =
    c.state.log.countP (fun e => e.2 = .outcome p (.dropped r)) +
      (if r = .inactive then (c.state.observer p).dropped.length else 0) +
      if r = .tooLarge then (c.state.observer p).unsent else 0

end Many

end Iii.Dispatch
