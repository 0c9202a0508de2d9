import Iii.Lib.Assoc
import Iii.Queue.Names
import Mathlib.Data.Finset.Image

/-! The subscriptions of a topic (`BuiltinQueueAdapter`, `builtins/queue.rs`).

Three maps stand for one thing, which destinations a topic has: the set of destinations of each topic, and under
the joined key `topic:id` the destination of a trigger and the handle of its worker. They say the same as the calls
as long as no two live triggers meet under one key, whether it is one trigger subscribed again or two pairs whose
joined strings are equal. At the first call that makes them meet they part, and `fanOut_iff` says so both ways. -/
namespace Iii.Queue.Topics
open Lib

/-! ### The adapter -/

/-- A topic and the id of a trigger. -/
abbrev Pair := String × String

/-- The key that both maps of a trigger have. -/
def subKey (pair : Pair) : String := pair.1 ++ ":" ++ pair.2

/-- `workers` are the tasks of the queue that run, by handle, with what they consume from. -/
structure Adapter where
  topicFunctions : List (String × Finset Destination)
  triggerFunctionMap : List (String × String × Destination)
  subscriptions : List (String × Nat)
  workers : List (Nat × String)
  nextHandle : Nat

def Adapter.new : Adapter := ⟨[], [], [], [], 0⟩

inductive Call where
  | subscribe (pair : Pair) (destination : Destination)
  | unsubscribe (pair : Pair)

namespace Adapter

def subscribe (s : Adapter) (pair : Pair) (destination : Destination) : Adapter where
  topicFunctions := Assoc.insert s.topicFunctions pair.1
    (insert destination ((Assoc.get? s.topicFunctions pair.1).getD ∅))
  triggerFunctionMap := Assoc.insert s.triggerFunctionMap (subKey pair) (pair.1, destination)
  subscriptions := Assoc.insert s.subscriptions (subKey pair) s.nextHandle
  workers := Assoc.insert s.workers s.nextHandle (internalQueue pair.1 destination)
  nextHandle := s.nextHandle + 1

/-- The last part of `unsubscribe`, for the mapping that was removed: unless another trigger maps to the same. -/
def dropDestination (s : Adapter) (mapped : String × Destination) : List (String × Finset Destination) :=
  if s.triggerFunctionMap.any fun m => m.2 = mapped then s.topicFunctions
  else
    match Assoc.get? s.topicFunctions mapped.1 with
    | none => s.topicFunctions
    | some dests =>
      if dests.erase mapped.2 = ∅ then Assoc.erase s.topicFunctions mapped.1
      else Assoc.insert s.topicFunctions mapped.1 (dests.erase mapped.2)

/-- The first parts of `unsubscribe`. -/
def withdraw (s : Adapter) (pair : Pair) : Adapter :=
  { s with
    triggerFunctionMap := Assoc.erase s.triggerFunctionMap (subKey pair)
    subscriptions := Assoc.erase s.subscriptions (subKey pair)
    workers :=
      match Assoc.get? s.subscriptions (subKey pair) with
      | some handle => Assoc.erase s.workers handle
      | none => s.workers }

def unsubscribe (s : Adapter) (pair : Pair) : Adapter :=
  match Assoc.get? s.triggerFunctionMap (subKey pair) with
  | some mapped => { s.withdraw pair with topicFunctions := (s.withdraw pair).dropDestination mapped }
  | none => s.withdraw pair

def step (s : Adapter) : Call → Adapter
  | .subscribe pair destination => s.subscribe pair destination
  | .unsubscribe pair => s.unsubscribe pair

def destinations (s : Adapter) (topic : String) : Finset Destination := (Assoc.get? s.topicFunctions topic).getD ∅

/-- The queues that a message is pushed to. -/
def enqueue (s : Adapter) (topic : String) : Multiset String :=
  match Assoc.get? s.topicFunctions topic with
  | some dests => dests.val.map (internalQueue topic)
  | none => {topic}

end Adapter

def run (calls : List Call) : Adapter := calls.foldl Adapter.step .new

/-! ### What the calls say -/

/-- The destination of each pair whose latest call is a `subscribe`. -/
abbrev Latest := Pair → Option Destination

def Call.after (latest : Latest) : Call → Latest
  | .subscribe pair destination => Function.update latest pair (some destination)
  | .unsubscribe pair => Function.update latest pair none

def latest (calls : List Call) : Latest := calls.foldl Call.after fun _ => none

/-- The adapter says what the calls say. -/
structure FanOut (s : Adapter) (latest : Latest) : Prop where
  destinations : ∀ topic destination,
    destination ∈ s.destinations topic ↔ ∃ id, latest (topic, id) = some destination
  nonempty : ∀ topic, Assoc.get? s.topicFunctions topic ≠ some ∅
  /-- Each live pair has its worker. -/
  running : ∀ pair destination, latest pair = some destination →
    ∃ handle, Assoc.get? s.subscriptions (subKey pair) = some handle ∧
      Assoc.get? s.workers handle = some (internalQueue pair.1 destination)
  /-- Each worker is that of one live pair. -/
  only : ∀ handle, (Assoc.get? s.workers handle).isSome →
    ∃! pair, (latest pair).isSome ∧ Assoc.get? s.subscriptions (subKey pair) = some handle
  /-- A message goes once to the queue of each live destination, and to no other. -/
  pushes : ∀ topic, (∃ id, (latest (topic, id)).isSome) → (s.enqueue topic).Nodup ∧
    ∀ queue, queue ∈ s.enqueue topic ↔
      ∃ id destination, latest (topic, id) = some destination ∧ queue = internalQueue topic destination

/-- A call after which no two live pairs have one key: a `subscribe` comes when no live pair has it, an `unsubscribe`
when no other live pair has it. -/
def Call.Clear (latest : Latest) : Call → Prop
  | .subscribe pair _ => ∀ other, (latest other).isSome → subKey other ≠ subKey pair
  | .unsubscribe pair => ∀ other, (latest other).isSome → subKey other = subKey pair → other = pair

/-! ### The maps in step -/

/-- The invariant of the runs of such calls. -/
structure Agree (s : Adapter) (latest : Latest) : Prop where
  keys : ∀ pair other, (latest pair).isSome → (latest other).isSome → subKey pair = subKey other → pair = other
  distinct : Assoc.Distinct s.triggerFunctionMap
  mapped : ∀ key topic destination, Assoc.get? s.triggerFunctionMap key = some (topic, destination) ↔
    ∃ id, subKey (topic, id) = key ∧ latest (topic, id) = some destination
  handles : ∀ key, (Assoc.get? s.subscriptions key).isSome ↔ (Assoc.get? s.triggerFunctionMap key).isSome
  running : ∀ key handle mapped, Assoc.get? s.subscriptions key = some handle →
    Assoc.get? s.triggerFunctionMap key = some mapped → Assoc.get? s.workers handle = some (internalQueue mapped.1 mapped.2)
  only : ∀ handle, (Assoc.get? s.workers handle).isSome → ∃ key, Assoc.get? s.subscriptions key = some handle
  apart : ∀ key key' handle, Assoc.get? s.subscriptions key = some handle →
    Assoc.get? s.subscriptions key' = some handle → key = key'
  fresh : ∀ handle, (Assoc.get? s.workers handle).isSome → handle < s.nextHandle
  destinations : ∀ topic destination,
    destination ∈ s.destinations topic ↔ ∃ key, Assoc.get? s.triggerFunctionMap key = some (topic, destination)
  nonempty : ∀ topic, Assoc.get? s.topicFunctions topic ≠ some ∅

theorem Agree.new : Agree .new fun _ => none := by
  constructor <;> simp [Adapter.new, Adapter.destinations, Assoc.Distinct]

section Steps
variable {s : Adapter} {l : Latest} {pair : Pair} {destination : Destination}

theorem Agree.fanOut_destinations (h : Agree s l) (topic : String) (destination : Destination) :
    destination ∈ s.destinations topic ↔ ∃ id, l (topic, id) = some destination := by
  rw [h.destinations]
  constructor
  · rintro ⟨key, hkey⟩
    obtain ⟨id, -, hid⟩ := (h.mapped key topic destination).mp hkey
    exact ⟨id, hid⟩
  · rintro ⟨id, hid⟩
    exact ⟨_, (h.mapped _ topic destination).mpr ⟨id, rfl, hid⟩⟩

theorem Agree.fanOut (h : Agree s l) : FanOut s l where
  destinations := h.fanOut_destinations
  nonempty := h.nonempty
  running := by
    rintro ⟨topic, id⟩ destination hlive
    have hmapped := (h.mapped (subKey (topic, id)) topic destination).mpr ⟨id, rfl, hlive⟩
    obtain ⟨handle, hhandle⟩ := Option.isSome_iff_exists.mp ((h.handles _).mpr (Option.isSome_of_eq_some hmapped))
    exact ⟨handle, hhandle, h.running _ handle (topic, destination) hhandle hmapped⟩
  only := by
    intro handle hworker
    obtain ⟨key, hkey⟩ := h.only handle hworker
    obtain ⟨⟨topic, destination⟩, hmapped⟩ :=
      Option.isSome_iff_exists.mp ((h.handles key).mp (Option.isSome_of_eq_some hkey))
    obtain ⟨id, rfl, hlive⟩ := (h.mapped key topic destination).mp hmapped
    refine ⟨(topic, id), ⟨Option.isSome_of_eq_some hlive, hkey⟩, ?_⟩
    rintro other ⟨hother, hsame⟩
    exact h.keys other (topic, id) hother (Option.isSome_of_eq_some hlive) (h.apart _ _ handle hsame hkey)
  pushes := by
    rintro topic ⟨id, hlive⟩
    obtain ⟨destination, hlive⟩ := Option.isSome_iff_exists.mp hlive
    have hmem : ∀ destination, destination ∈ s.destinations topic ↔ ∃ id, l (topic, id) = some destination :=
      h.fanOut_destinations topic
    unfold Adapter.enqueue
    unfold Adapter.destinations at hmem
    cases hdests : Assoc.get? s.topicFunctions topic with
    | none =>
      rw [hdests] at hmem
      exact absurd ((hmem destination).mpr ⟨id, hlive⟩) (Finset.notMem_empty _)
    | some dests =>
      rw [hdests] at hmem
      refine ⟨dests.nodup.map (internalQueue_injective topic), fun queue => ?_⟩
      rw [Multiset.mem_map]
      constructor
      · rintro ⟨d, hd, rfl⟩
        obtain ⟨id, hid⟩ := (hmem d).mp hd
        exact ⟨id, d, hid, rfl⟩
      · rintro ⟨id, d, hid, rfl⟩
        exact ⟨d, (hmem d).mpr ⟨id, hid⟩, rfl⟩

/-- A key that no live pair has is in neither map. -/
theorem Agree.free (h : Agree s l) {key : String} (hfree : ∀ other, (l other).isSome → subKey other ≠ key) :
    Assoc.get? s.triggerFunctionMap key = none ∧ Assoc.get? s.subscriptions key = none := by
  have hmapped : Assoc.get? s.triggerFunctionMap key = none := by
    cases hkey : Assoc.get? s.triggerFunctionMap key with
    | none => rfl
    | some mapped =>
      obtain ⟨id, hid, hlive⟩ := (h.mapped key mapped.1 mapped.2).mp hkey
      exact absurd hid (hfree _ (Option.isSome_of_eq_some hlive))
  refine ⟨hmapped, Option.not_isSome_iff_eq_none.mp fun hsome => ?_⟩
  rw [h.handles, hmapped] at hsome
  cases hsome

theorem Agree.handle_lt (h : Agree s l) {key : String} {handle : Nat}
    (hkey : Assoc.get? s.subscriptions key = some handle) : handle < s.nextHandle := by
  obtain ⟨mapped, hmapped⟩ := Option.isSome_iff_exists.mp ((h.handles key).mp (Option.isSome_of_eq_some hkey))
  exact h.fresh handle (Option.isSome_of_eq_some (h.running key handle mapped hkey hmapped))

theorem destinations_subscribe (topic : String) (d : Destination) :
    d ∈ (s.subscribe pair destination).destinations topic ↔
      (topic, d) = (pair.1, destination) ∨ d ∈ s.destinations topic := by
  unfold Adapter.destinations Adapter.subscribe
  dsimp only
  rw [Assoc.get?_insert]
  by_cases htopic : pair.1 = topic
  · subst htopic
    simp
  · simp [htopic, Ne.symm htopic]

theorem Agree.subscribe (h : Agree s l) (hclear : (Call.subscribe pair destination).Clear l) :
    Agree (s.subscribe pair destination) (Function.update l pair (some destination)) := by
  obtain ⟨hmapped, hhandle⟩ := h.free hclear
  have hother : ∀ {p : Pair}, subKey p ≠ subKey pair → Function.update l pair (some destination) p = l p :=
    fun hne => Function.update_of_ne (fun heq => hne (congrArg subKey heq)) _ _
  -- With the key of the new pair there is only that pair.
  have honly : ∀ {p : Pair}, (Function.update l pair (some destination) p).isSome → subKey p = subKey pair → p = pair := by
    intro p hlive hkey
    by_contra hne
    rw [Function.update_of_ne hne] at hlive
    exact hclear p hlive hkey
  refine ⟨?_, Assoc.distinct_insert h.distinct _ _, ?_, ?_, ?_, ?_, ?_, ?_, ?_, ?_⟩
  · intro p q hp hq hkey
    by_cases hpair : subKey p = subKey pair
    · rw [honly hp hpair, honly hq (hkey ▸ hpair)]
    · rw [hother hpair] at hp
      rw [hother (hkey ▸ hpair)] at hq
      exact h.keys p q hp hq hkey
  · intro key topic d
    show Assoc.get? (Assoc.insert _ _ _) _ = _ ↔ _
    rw [Assoc.get?_insert]
    split
    · rename_i hkey
      constructor
      · intro heq
        cases heq
        exact ⟨pair.2, hkey, Function.update_self ..⟩
      · rintro ⟨id, hid, hlive⟩
        obtain rfl := honly (Option.isSome_of_eq_some hlive) (hid.trans hkey.symm)
        rw [Function.update_self] at hlive
        cases hlive
        rfl
    · rename_i hkey
      rw [h.mapped]
      refine exists_congr fun id => and_congr_right fun hid => ?_
      rw [hother fun heq => hkey (heq.symm.trans hid)]
  · intro key
    show (Assoc.get? (Assoc.insert _ _ _) _).isSome ↔ (Assoc.get? (Assoc.insert _ _ _) _).isSome
    rw [Assoc.get?_insert, Assoc.get?_insert]
    split
    · exact Iff.rfl
    · exact h.handles key
  · intro key handle mapped hsub hmap
    change Assoc.get? (Assoc.insert _ _ _) _ = _ at hsub hmap
    show Assoc.get? (Assoc.insert _ _ _) _ = _
    rw [Assoc.get?_insert] at hsub hmap ⊢
    by_cases hkey : subKey pair = key
    · rw [if_pos hkey] at hsub hmap
      cases hsub
      cases hmap
      rw [if_pos rfl]
    · rw [if_neg hkey] at hsub hmap
      rw [if_neg (h.handle_lt hsub).ne', h.running key handle mapped hsub hmap]
  · intro handle hworker
    change (Assoc.get? (Assoc.insert _ _ _) _).isSome at hworker
    show ∃ key, Assoc.get? (Assoc.insert _ _ _) _ = _
    rw [Assoc.get?_insert] at hworker
    by_cases hnew : s.nextHandle = handle
    · exact ⟨subKey pair, by rw [Assoc.get?_insert, if_pos rfl, hnew]⟩
    · rw [if_neg hnew] at hworker
      obtain ⟨key, hkey⟩ := h.only handle hworker
      refine ⟨key, ?_⟩
      rw [Assoc.get?_insert, if_neg, hkey]
      rintro rfl
      rw [hhandle] at hkey
      cases hkey
  · intro key key' handle hkey hkey'
    change Assoc.get? (Assoc.insert _ _ _) _ = _ at hkey hkey'
    rw [Assoc.get?_insert] at hkey hkey'
    split at hkey
    · rename_i hpair
      split at hkey'
      · rename_i hpair'
        exact hpair.symm.trans hpair'
      · cases hkey
        exact absurd (h.handle_lt hkey') (lt_irrefl _)
    · split at hkey'
      · cases hkey'
        exact absurd (h.handle_lt hkey) (lt_irrefl _)
      · exact h.apart key key' handle hkey hkey'
  · intro handle hworker
    change (Assoc.get? (Assoc.insert _ _ _) _).isSome at hworker
    show handle < s.nextHandle + 1
    rw [Assoc.get?_insert] at hworker
    split at hworker
    · omega
    · exact Nat.lt_succ_of_lt (h.fresh handle hworker)
  · intro topic d
    rw [destinations_subscribe, h.destinations]
    show _ ↔ ∃ key, Assoc.get? (Assoc.insert _ _ _) _ = _
    constructor
    · rintro (heq | ⟨key, hkey⟩)
      · exact ⟨subKey pair, by rw [Assoc.get?_insert, if_pos rfl, heq]⟩
      · refine ⟨key, ?_⟩
        rw [Assoc.get?_insert, if_neg, hkey]
        rintro rfl
        rw [hmapped] at hkey
        cases hkey
    · rintro ⟨key, hkey⟩
      rw [Assoc.get?_insert] at hkey
      split at hkey
      · exact .inl (Option.some.inj hkey).symm
      · exact .inr ⟨key, hkey⟩
  · intro topic
    show Assoc.get? (Assoc.insert _ _ _) _ ≠ _
    rw [Assoc.get?_insert]
    split
    · exact fun heq => Finset.insert_ne_empty _ _ (Option.some.inj heq)
    · exact h.nonempty topic

theorem unsubscribe_eq (s : Adapter) (pair : Pair) : s.unsubscribe pair =
    { s.withdraw pair with
      topicFunctions :=
        match Assoc.get? s.triggerFunctionMap (subKey pair) with
        | some mapped => (s.withdraw pair).dropDestination mapped
        | none => s.topicFunctions } := by
  unfold Adapter.unsubscribe
  split <;> rfl

theorem any_mapped (h : Assoc.Distinct s.triggerFunctionMap) (mapped : String × Destination) :
    (s.triggerFunctionMap.any fun m => m.2 = mapped) = true ↔
      ∃ key, Assoc.get? s.triggerFunctionMap key = some mapped := by
  rw [List.any_eq_true]
  constructor
  · rintro ⟨m, hm, heq⟩
    exact ⟨m.1, of_decide_eq_true heq ▸ Assoc.get?_of_mem h hm⟩
  · rintro ⟨key, hkey⟩
    exact ⟨(key, mapped), Assoc.mem_of_get? hkey, decide_eq_true rfl⟩

/-- The destination goes with the last trigger that maps to it. -/
theorem mem_dropDestination (h : Assoc.Distinct s.triggerFunctionMap) (mapped : String × Destination) (topic : String)
    (d : Destination) : d ∈ (Assoc.get? (s.dropDestination mapped) topic).getD ∅ ↔
      d ∈ s.destinations topic ∧
        ((topic, d) = mapped → ∃ key, Assoc.get? s.triggerFunctionMap key = some mapped) := by
  obtain ⟨topic', d'⟩ := mapped
  unfold Adapter.dropDestination Adapter.destinations
  split
  · rename_i hany
    simp [(any_mapped h (topic', d')).mp hany]
  · rename_i hnone
    rw [any_mapped h] at hnone
    split
    · rename_i hdests
      refine ⟨fun hd => ⟨hd, ?_⟩, fun hd => hd.1⟩
      rintro ⟨⟩
      rw [hdests] at hd
      exact absurd hd (Finset.notMem_empty _)
    · rename_i dests hdests
      have hkept : ∀ t, (Assoc.get? (if dests.erase d' = ∅ then Assoc.erase s.topicFunctions topic'
            else Assoc.insert s.topicFunctions topic' (dests.erase d')) t).getD ∅ =
          if topic' = t then dests.erase d' else (Assoc.get? s.topicFunctions t).getD ∅ := by
        intro t
        split
        · rename_i hempty
          rw [Assoc.get?_erase]
          split
          · exact hempty.symm
          · rfl
        · rw [Assoc.get?_insert]
          split <;> rfl
      rw [hkept]
      by_cases htopic : topic' = topic
      · subst htopic
        rw [if_pos rfl, hdests, Finset.mem_erase]
        constructor
        · rintro ⟨hne, hd⟩
          exact ⟨hd, fun heq => absurd (Prod.mk.inj heq).2 hne⟩
        · rintro ⟨hd, hlast⟩
          exact ⟨fun heq => hnone (hlast (by rw [heq])), hd⟩
      · rw [if_neg htopic]
        exact ⟨fun hd => ⟨hd, fun heq => absurd (Prod.mk.inj heq).1.symm htopic⟩, fun hd => hd.1⟩

theorem dropDestination_nonempty (h : ∀ topic, Assoc.get? s.topicFunctions topic ≠ some ∅)
    (mapped : String × Destination) (topic : String) : Assoc.get? (s.dropDestination mapped) topic ≠ some ∅ := by
  unfold Adapter.dropDestination
  split
  · exact h topic
  · split
    · exact h topic
    · split
      · rw [Assoc.get?_erase]
        split
        · exact (Option.some_ne_none _).symm
        · exact h topic
      · rename_i hrest
        rw [Assoc.get?_insert]
        split
        · exact fun heq => hrest (Option.some.inj heq)
        · exact h topic

theorem Agree.unsubscribe (h : Agree s l) (hclear : (Call.unsubscribe pair).Clear l) :
    Agree (s.unsubscribe pair) (Function.update l pair none) := by
  have hother : ∀ {p : Pair}, subKey p ≠ subKey pair → Function.update l pair none p = l p :=
    fun hne => Function.update_of_ne (fun heq => hne (congrArg subKey heq)) _ _
  have hlive : ∀ {p : Pair}, (Function.update l pair none p).isSome → (l p).isSome ∧ subKey p ≠ subKey pair := by
    intro p hp
    have hne : p ≠ pair := by
      rintro rfl
      rw [Function.update_self] at hp
      cases hp
    rw [Function.update_of_ne hne] at hp
    exact ⟨hp, fun hkey => hne (hclear p hp hkey)⟩
  have hdistinct : Assoc.Distinct (s.withdraw pair).triggerFunctionMap := Assoc.distinct_erase h.distinct _
  have hmap : ∀ key v, Assoc.get? (s.withdraw pair).triggerFunctionMap key = some v ↔
      subKey pair ≠ key ∧ Assoc.get? s.triggerFunctionMap key = some v := by
    intro key v
    show Assoc.get? (Assoc.erase _ _) _ = _ ↔ _
    rw [Assoc.get?_erase]
    by_cases hkey : subKey pair = key <;> simp [hkey]
  have hsub : ∀ key handle, Assoc.get? (s.withdraw pair).subscriptions key = some handle ↔
      subKey pair ≠ key ∧ Assoc.get? s.subscriptions key = some handle := by
    intro key handle
    show Assoc.get? (Assoc.erase _ _) _ = _ ↔ _
    rw [Assoc.get?_erase]
    by_cases hkey : subKey pair = key <;> simp [hkey]
  have hworker : ∀ handle queue, Assoc.get? (s.withdraw pair).workers handle = some queue ↔
      Assoc.get? s.subscriptions (subKey pair) ≠ some handle ∧ Assoc.get? s.workers handle = some queue := by
    intro handle queue
    unfold Adapter.withdraw
    dsimp only
    cases hhandle : Assoc.get? s.subscriptions (subKey pair) with
    | none => simp
    | some handle' =>
      dsimp only
      rw [Assoc.get?_erase]
      by_cases heq : handle' = handle <;> simp [heq]
  rw [unsubscribe_eq]
  refine ⟨?_, hdistinct, ?_, ?_, ?_, ?_, ?_, ?_, ?_, ?_⟩
  · exact fun p q hp hq => h.keys p q (hlive hp).1 (hlive hq).1
  · intro key topic d
    show Assoc.get? (s.withdraw pair).triggerFunctionMap key = _ ↔ _
    rw [hmap, h.mapped]
    constructor
    · rintro ⟨hkey, id, rfl, hid⟩
      exact ⟨id, rfl, (hother hkey.symm).trans hid⟩
    · rintro ⟨id, rfl, hid⟩
      have hkey := (hlive (Option.isSome_of_eq_some hid)).2
      exact ⟨hkey.symm, id, rfl, (hother hkey).symm.trans hid⟩
  · intro key
    show (Assoc.get? (Assoc.erase _ _) _).isSome ↔ (Assoc.get? (Assoc.erase _ _) _).isSome
    rw [Assoc.get?_erase, Assoc.get?_erase]
    split
    · exact Iff.rfl
    · exact h.handles key
  · intro key handle mapped hkey hmapped
    obtain ⟨hne, hkey⟩ := (hsub key handle).mp hkey
    obtain ⟨-, hmapped⟩ := (hmap key mapped).mp hmapped
    exact (hworker handle _).mpr ⟨fun hsame => hne (h.apart _ _ handle hsame hkey), h.running key handle mapped hkey hmapped⟩
  · intro handle hrunning
    obtain ⟨queue, hqueue⟩ := Option.isSome_iff_exists.mp hrunning
    obtain ⟨hne, hqueue⟩ := (hworker handle queue).mp hqueue
    obtain ⟨key, hkey⟩ := h.only handle (Option.isSome_of_eq_some hqueue)
    exact ⟨key, (hsub key handle).mpr ⟨fun heq => hne (heq ▸ hkey), hkey⟩⟩
  · intro key key' handle hkey hkey'
    exact h.apart key key' handle ((hsub key handle).mp hkey).2 ((hsub key' handle).mp hkey').2
  · intro handle hrunning
    obtain ⟨queue, hqueue⟩ := Option.isSome_iff_exists.mp hrunning
    exact h.fresh handle (Option.isSome_of_eq_some ((hworker handle queue).mp hqueue).2)
  · intro topic d
    show d ∈ (Assoc.get? _ topic).getD ∅ ↔ ∃ key, Assoc.get? (s.withdraw pair).triggerFunctionMap key = some (topic, d)
    cases hmapped : Assoc.get? s.triggerFunctionMap (subKey pair) with
    | none =>
      refine (h.destinations topic d).trans (exists_congr fun key => ?_)
      rw [hmap]
      refine ⟨fun hkey => ⟨?_, hkey⟩, fun hkey => hkey.2⟩
      rintro rfl
      rw [hmapped] at hkey
      cases hkey
    | some mapped =>
      refine (mem_dropDestination hdistinct mapped topic d).trans ?_
      rw [show (s.withdraw pair).destinations topic = s.destinations topic from rfl, h.destinations]
      constructor
      · rintro ⟨⟨key, hkey⟩, hlast⟩
        by_cases hpair : subKey pair = key
        · rw [← hpair, hmapped] at hkey
          obtain rfl := Option.some.inj hkey
          exact hlast rfl
        · exact ⟨key, (hmap key _).mpr ⟨hpair, hkey⟩⟩
      · rintro ⟨key, hkey⟩
        exact ⟨⟨key, ((hmap key _).mp hkey).2⟩, fun heq => ⟨key, heq ▸ hkey⟩⟩
  · intro topic
    show Assoc.get? _ topic ≠ some ∅
    dsimp only
    split
    · exact dropDestination_nonempty (s := s.withdraw pair) h.nonempty _ topic
    · exact h.nonempty topic

theorem Agree.step (h : Agree s l) {call : Call} (hclear : call.Clear l) : Agree (s.step call) (call.after l) := by
  cases call with
  | subscribe => exact h.subscribe hclear
  | unsubscribe => exact h.unsubscribe hclear

/-! ### Where the maps part -/

/-- A call that is not clear makes two live pairs meet, and one of them is left without its worker or a worker without
its pair. -/
theorem Agree.clear (h : Agree s l) {call : Call} (hafter : FanOut (s.step call) (call.after l)) : call.Clear l := by
  cases call with
  | subscribe pair destination =>
    intro other hother hkey
    obtain ⟨d, hd⟩ := Option.isSome_iff_exists.mp hother
    obtain ⟨handle, hhandle, hworker⟩ := h.fanOut.running other d hd
    have hlt := h.handle_lt hhandle
    have hstill : (Assoc.get? (s.subscribe pair destination).workers handle).isSome := by
      show (Assoc.get? (Assoc.insert _ _ _) _).isSome
      rw [Assoc.get?_insert, if_neg hlt.ne', hworker]
      rfl
    obtain ⟨owner, ⟨-, howner⟩, -⟩ := hafter.only handle hstill
    change Assoc.get? (Assoc.insert _ _ _) _ = _ at howner
    rw [Assoc.get?_insert] at howner
    split at howner
    · exact hlt.ne' (Option.some.inj howner)
    · rename_i hne
      exact hne (hkey.symm.trans (h.apart _ _ handle hhandle howner))
  | unsubscribe pair =>
    intro other hother hkey
    by_contra hne
    obtain ⟨d, hd⟩ := Option.isSome_iff_exists.mp hother
    obtain ⟨handle, hhandle, -⟩ := hafter.running other d ((Function.update_of_ne hne _ _).trans hd)
    change Assoc.get? (s.unsubscribe pair).subscriptions _ = _ at hhandle
    rw [unsubscribe_eq] at hhandle
    change Assoc.get? (Assoc.erase _ _) _ = _ at hhandle
    rw [Assoc.get?_erase, if_pos hkey.symm] at hhandle
    cases hhandle

end Steps

/-! ### Runs -/

theorem run_snoc (calls : List Call) (call : Call) : run (calls ++ [call]) = (run calls).step call := by
  simp [run]

theorem latest_snoc (calls : List Call) (call : Call) : latest (calls ++ [call]) = call.after (latest calls) := by
  simp [latest]

theorem run_agree {calls : List Call}
    (h : ∀ before call, before ++ [call] <+: calls → call.Clear (latest before)) : Agree (run calls) (latest calls) := by
  induction calls using List.reverseRecOn with
  | nil => exact .new
  | append_singleton calls call ih =>
    rw [run_snoc, latest_snoc]
    exact (ih fun before c hc => h before c (hc.trans (List.prefix_append _ _))).step (h calls call List.prefix_rfl)

/-- As long as the adapter says what the calls say, the calls are clear and the maps agree. -/
theorem agree_of_fanOut {calls : List Call} (h : ∀ before, before <+: calls → FanOut (run before) (latest before)) :
    Agree (run calls) (latest calls) := by
  induction calls using List.reverseRecOn with
  | nil => exact .new
  | append_singleton calls call ih =>
    have hbefore := ih fun before hb => h before (hb.trans (List.prefix_append _ _))
    have hafter := h (calls ++ [call]) List.prefix_rfl
    rw [run_snoc, latest_snoc] at hafter ⊢
    exact hbefore.step (hbefore.clear hafter)

/-- **The fan-out of a topic is its subscriptions**, after every call of a sequence, if and only if each `subscribe`
comes when no live pair has its key and each `unsubscribe` when no other live pair has it. -/
theorem fanOut_iff (calls : List Call) :
    (∀ before, before <+: calls → FanOut (run before) (latest before)) ↔
      ∀ before call, before ++ [call] <+: calls → call.Clear (latest before) := by
  constructor
  · intro h before call hcall
    have hbefore := agree_of_fanOut fun b hb => h b ((hb.trans (List.prefix_append _ [call])).trans hcall)
    have hafter := h (before ++ [call]) hcall
    rw [run_snoc, latest_snoc] at hafter
    exact hbefore.clear hafter
  · exact fun h before hbefore => (run_agree fun earlier call hcall => h earlier call (hcall.trans hbefore)).fanOut

/-- A trigger that is subscribed again with another function: its first function is still a destination, and the worker
of the first still runs. -/
theorem fanOut_resubscribed : ¬ ∀ calls, FanOut (run calls) (latest calls) := by
  intro h
  have hstale := ((h [.subscribe ("t", "a") ("default", "f"), .subscribe ("t", "a") ("default", "g")]).destinations
    "t" ("default", "f")).mp (by decide)
  obtain ⟨id, hid⟩ := hstale
  simp only [latest, List.foldl, Call.after, Function.update_apply] at hid
  split at hid <;> simp at hid

end Iii.Queue.Topics
