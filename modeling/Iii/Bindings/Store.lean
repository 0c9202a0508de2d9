import Iii.Bindings.Registry
import Iii.Lib.Buckets
import Iii.Lib.System

/-! The live triggers and their index by type (`TriggerStore`).

An operation holds the entry of its id from its first look at it to its end, and changes the index in between, one
bucket at a time; the operations on other ids change the same buckets meanwhile. What the index says of an id is
therefore settled by the operation on that id alone: nobody else puts its entry in or takes it out, and a bucket is
made and dropped in the very steps that fill and empty it. -/
namespace Iii.TriggerStore
open Lib
open Bindings (Trigger)

/-- How far the operation on an id has come. -/
inductive Phase where
  | idle
  /-- `insert`, before the entry under the old type is removed. -/
  | leaving (old new : Trigger)
  /-- `insert`, before the entry under the new type is made. -/
  | joining (new : Trigger)
  /-- `insert`, before the trigger is put under its id. -/
  | storing (new : Trigger)
  /-- `remove_if`, before the entry of the type is removed. -/
  | dropping (old : Trigger)
  /-- `remove_if`, before the id is removed. -/
  | erasing

structure State where
  byId : String → Option Trigger
  byType : Buckets String String Trigger
  phases : String → Phase

inductive Operation where
  | insert (id : String) (trigger : Trigger)
  | removeIf (id : String) (predicate : String → Trigger → Bool)

def Operation.id : Operation → String
  | insert id _ | removeIf id _ => id

/-- `remove`. -/
def Operation.remove (id : String) : Operation := .removeIf id fun _ _ => true

/-- What an operation does first, once it has the entry. -/
def Operation.enter (op : Operation) (occupied : Option Trigger) : Phase :=
  match op, occupied with
  | .insert _ trigger, some old =>
    if old.triggerType ≠ trigger.triggerType then .leaving old trigger else .joining trigger
  | .insert _ trigger, none => .joining trigger
  | .removeIf id predicate, some old => if predicate id old then .dropping old else .idle
  | .removeIf _ _, none => .idle

namespace State

def start (s : State) (op : Operation) : State :=
  { s with phases := Function.update s.phases op.id (op.enter (s.byId op.id)) }

/-- `insert_target`. -/
def insertTarget (s : State) (id : String) (trigger : Trigger) : State :=
  { s with byType := s.byType.put trigger.triggerType id trigger }

/-- `remove_target`. -/
def removeTarget (s : State) (id triggerType : String) : State :=
  { s with byType := s.byType.take triggerType id }

def goTo (s : State) (id : String) (phase : Phase) : State := { s with phases := Function.update s.phases id phase }

/-- The next step of the operation on the id. -/
def advance (s : State) (id : String) : State :=
  match s.phases id with
  | .idle => s
  | .leaving old new => (s.removeTarget id old.triggerType).goTo id (.joining new)
  | .joining new => (s.insertTarget id new).goTo id (.storing new)
  | .storing new => { s with byId := Function.update s.byId id (some new) }.goTo id .idle
  | .dropping old => (s.removeTarget id old.triggerType).goTo id .erasing
  | .erasing => { s with byId := Function.update s.byId id none }.goTo id .idle

/-- `targets_for_type`. -/
def targetsForType (s : State) (triggerType : String) : List Trigger := (s.byType.bucket triggerType).map (·.2)

def new : State := ⟨fun _ => none, fun _ => none, fun _ => .idle⟩

end State

inductive Step : State → State → Prop where
  | start (s : State) (op : Operation) (h : s.phases op.id = .idle) : Step s (s.start op)
  | advance (s : State) (id : String) : Step s (s.advance id)

def store : System State := ⟨fun s => s = .new, Step⟩

/-! ### What the index says of an id -/

/-- The index holds an id under one type, or under none. -/
def Holds (s : State) (id : String) (trigger : Option Trigger) : Prop :=
  ∀ type x, s.byType.get? type id = some x ↔ trigger = some x ∧ x.triggerType = type

/-- What is settled of an id while the operation on it is in some phase. -/
def Settled (s : State) (id : String) : Phase → Prop
  | .idle => Holds s id (s.byId id)
  | .leaving old _ => s.byId id = some old ∧ Holds s id (some old)
  | .joining new => ∀ type, type ≠ new.triggerType → s.byType.get? type id = none
  | .storing new => Holds s id (some new)
  | .dropping old => s.byId id = some old ∧ Holds s id (some old)
  | .erasing => Holds s id none

structure Inv (s : State) : Prop where
  tidy : s.byType.Tidy
  settled : ∀ id, Settled s id (s.phases id)

section
variable {s s' : State} {id id' : String} {old new : Trigger} {phase : Phase}

/-- What is settled of an id depends on what the two maps say of it alone. -/
theorem Settled.congr (h : Settled s id phase) (hbyId : s'.byId id = s.byId id)
    (hbyType : ∀ type, s'.byType.get? type id = s.byType.get? type id) : Settled s' id phase := by
  cases phase <;> simpa [Settled, Holds, hbyId, hbyType] using h

theorem Holds.of_removeTarget (h : Holds s id (some old)) : Holds (s.removeTarget id old.triggerType) id none := by
  intro type x
  show (s.byType.take old.triggerType id).get? type id = some x ↔ _
  rw [Buckets.get?_take]
  constructor
  · intro hget
    split at hget
    · cases hget
    · rename_i hne
      obtain ⟨heq, htype⟩ := (h type x).mp hget
      cases heq
      exact absurd ⟨htype.symm, rfl⟩ hne
  · exact fun hnone => nomatch hnone.1

theorem Holds.of_insertTarget (h : ∀ type, type ≠ new.triggerType → s.byType.get? type id = none) :
    Holds (s.insertTarget id new) id (some new) := by
  intro type x
  show (s.byType.put new.triggerType id new).get? type id = some x ↔ _
  rw [Buckets.get?_put]
  by_cases htype : type = new.triggerType
  · rw [if_pos ⟨htype, rfl⟩, htype, Option.some_inj]
    constructor
    · rintro rfl
      exact ⟨rfl, rfl⟩
    · exact And.left
  · rw [if_neg fun hkey => htype hkey.1, h type htype]
    constructor
    · exact nofun
    · rintro ⟨heq, hx⟩
      cases heq
      exact absurd hx.symm htype

/-- An id that is not held under a type has no entry there. -/
theorem Holds.get?_eq_none {trigger : Option Trigger} (h : Holds s id trigger) {type : String}
    (hne : ∀ x, trigger = some x → x.triggerType ≠ type) : s.byType.get? type id = none := by
  cases hget : s.byType.get? type id with
  | none => rfl
  | some x =>
    obtain ⟨heq, htype⟩ := (h type x).mp hget
    exact absurd htype (hne x heq)

/-- The first step of an operation sees what the index says. -/
theorem settled_enter {op : Operation} (h : Holds s op.id (s.byId op.id)) :
    Settled s op.id (op.enter (s.byId op.id)) := by
  cases op with
  | insert id trigger =>
    have h : Holds s id (s.byId id) := h
    show Settled s id ((Operation.insert id trigger).enter (s.byId id))
    cases hold : s.byId id with
    | none =>
      rw [hold] at h
      exact fun type _ => h.get?_eq_none nofun
    | some old =>
      rw [hold] at h
      unfold Operation.enter
      dsimp only
      split
      · exact ⟨hold, h⟩
      · rename_i hsame
        intro type hne
        refine h.get?_eq_none fun x hx => ?_
        cases hx
        rw [not_not.mp hsame]
        exact hne.symm
  | removeIf id predicate =>
    have h : Holds s id (s.byId id) := h
    show Settled s id ((Operation.removeIf id predicate).enter (s.byId id))
    cases hold : s.byId id with
    | none => exact h
    | some old =>
      unfold Operation.enter
      dsimp only
      split
      · rw [hold] at h
        exact ⟨hold, h⟩
      · exact h

theorem inv_new : Inv .new where
  tidy := .empty
  settled := fun id type x => by simp [State.new, Buckets.get?, Buckets.bucket]

/-- An operation begins. -/
theorem Inv.start (h : Inv s) {op : Operation} (hidle : s.phases op.id = .idle) : Inv (s.start op) where
  tidy := h.tidy
  settled := by
    intro id
    have hid := h.settled id
    unfold State.start
    dsimp only
    rw [Function.update_apply]
    split
    · rename_i heq
      subst heq
      rw [hidle] at hid
      exact (settled_enter hid).congr rfl fun _ => rfl
    · exact hid.congr rfl fun _ => rfl

/-- A step of the operation on an id settles that id and leaves the others. -/
theorem Inv.goTo (h : Inv s) (htidy : s'.byType.Tidy) (hphases : s'.phases = s.phases)
    (hbyId : ∀ id', id' ≠ id → s'.byId id' = s.byId id')
    (hbyType : ∀ type id', id' ≠ id → s'.byType.get? type id' = s.byType.get? type id')
    (hphase : Settled s' id phase) : Inv (s'.goTo id phase) where
  tidy := htidy
  settled := by
    intro id'
    unfold State.goTo
    dsimp only
    rw [Function.update_apply]
    split
    · rename_i heq
      rw [heq]
      exact hphase.congr rfl fun _ => rfl
    · rename_i hne
      rw [hphases]
      exact (h.settled id').congr (hbyId id' hne) fun type => hbyType type id' hne

theorem Inv.removeTarget (h : Inv s) {type : String} (hphase : Settled (s.removeTarget id type) id phase) :
    Inv ((s.removeTarget id type).goTo id phase) := by
  refine h.goTo (h.tidy.take type id) rfl (fun _ _ => rfl) (fun type' id' hne => ?_) hphase
  show (s.byType.take type id).get? type' id' = _
  rw [Buckets.get?_take, if_neg fun hkey => hne hkey.2]

theorem Inv.insertTarget (h : Inv s) (hphase : Settled (s.insertTarget id new) id phase) :
    Inv ((s.insertTarget id new).goTo id phase) := by
  refine h.goTo (h.tidy.put new.triggerType id new) rfl (fun _ _ => rfl) (fun type' id' hne => ?_) hphase
  show (s.byType.put new.triggerType id new).get? type' id' = _
  rw [Buckets.get?_put, if_neg fun hkey => hne hkey.2]

theorem Inv.setId (h : Inv s) {trigger : Option Trigger} (hholds : Holds s id trigger) :
    Inv ({ s with byId := Function.update s.byId id trigger }.goTo id .idle) := by
  refine h.goTo h.tidy rfl (fun id' hne => Function.update_of_ne hne ..) (fun _ _ _ => rfl) ?_
  show Holds _ id (Function.update s.byId id trigger id)
  rw [Function.update_self]
  exact hholds

theorem Inv.advance (h : Inv s) (id : String) : Inv (s.advance id) := by
  have hid := h.settled id
  unfold State.advance
  cases hphase : s.phases id with
  | idle => exact h
  | leaving old new =>
    rw [hphase] at hid
    exact h.removeTarget fun type _ => hid.2.of_removeTarget.get?_eq_none nofun
  | joining new =>
    rw [hphase] at hid
    exact h.insertTarget (Holds.of_insertTarget hid)
  | storing new =>
    rw [hphase] at hid
    exact h.setId hid
  | dropping old =>
    rw [hphase] at hid
    exact h.removeTarget hid.2.of_removeTarget
  | erasing =>
    rw [hphase] at hid
    exact h.setId hid

end

/-! ### Runs -/

theorem inv_of_reachable {s : State} (h : store.Reachable s) : Inv s := by
  refine h.invariant (I := Inv) (fun s hs => ?_) fun s s' _ hinv hstep => ?_
  · rw [hs]
    exact inv_new
  · cases hstep with
    | start op hidle => exact hinv.start hidle
    | advance id => exact hinv.advance id

/-- No operation is in progress. -/
def Quiet (s : State) : Prop := ∀ id, s.phases id = .idle

/-- In every reachable state no bucket is empty, the index is exact for every id that no operation is on, and holds
what an insertion has put there and nothing else of that id. So when no operation is in progress the targets of a
type are the live triggers of that type, each once. -/
theorem index_exact {s : State} (h : store.Reachable s) :
    (∀ type, s.byType type ≠ some []) ∧
    (∀ id, s.phases id = .idle → ∀ type x,
      s.byType.get? type id = some x ↔ s.byId id = some x ∧ x.triggerType = type) ∧
    (∀ id new, s.phases id = .storing new → ∀ type x,
      s.byType.get? type id = some x ↔ x = new ∧ x.triggerType = type) ∧
    (Quiet s → ∀ type, ∃ listing : List (String × Trigger), s.targetsForType type = listing.map (·.2) ∧
      (listing.map (·.1)).Nodup ∧
      ∀ id x, (id, x) ∈ listing ↔ s.byId id = some x ∧ x.triggerType = type) := by
  have hinv := inv_of_reachable h
  have hidle : ∀ id, s.phases id = .idle → Holds s id (s.byId id) := by
    intro id hphase
    have hid := hinv.settled id
    rw [hphase] at hid
    exact hid
  refine ⟨hinv.tidy.nonempty, hidle, ?_, ?_⟩
  · intro id new hphase type x
    have hid := hinv.settled id
    rw [hphase] at hid
    rw [hid type x, Option.some_inj, eq_comm (a := new)]
  · intro hquiet type
    refine ⟨s.byType.bucket type, rfl, hinv.tidy.distinct type, fun id x => ?_⟩
    rw [hinv.tidy.mem_bucket]
    exact hidle id (hquiet id) type x

/-- A binding of the type. -/
def binding (id triggerType : String) : Trigger := ⟨id, triggerType, "", none, none, "default", "default"⟩

/-- Two bindings of different types. -/
def placed : State :=
  ((((((State.new.start (.insert "a" (binding "a" "cron"))).advance "a").advance "a").start
    (.insert "b" (binding "b" "event"))).advance "b").advance "b")

/-- One of them moves to the type of the other, which goes in between. -/
def crossed : State :=
  ((((((placed.start (.remove "b")).start (.insert "a" (binding "a" "event"))).advance "a").advance "b").advance
    "a").advance "b").advance "a"

theorem placed_reachable : store.Reachable placed := by
  have hnew : store.Reachable .new := .init rfl
  have hfirst := ((hnew.step (.start _ (.insert "a" (binding "a" "cron")) rfl)).step (.advance _ "a")).step
    (.advance _ "a")
  exact ((hfirst.step (.start _ (.insert "b" (binding "b" "event")) rfl)).step (.advance _ "b")).step (.advance _ "b")

theorem crossed_reachable : store.Reachable crossed := by
  have hremove := placed_reachable.step (.start _ (.remove "b") rfl)
  have hmove := (hremove.step (.start _ (.insert "a" (binding "a" "event")) rfl)).step (.advance _ "a")
  exact (((hmove.step (.advance _ "b")).step (.advance _ "a")).step (.advance _ "b")).step (.advance _ "a")

theorem index_exact_crossed : crossed.byType.get? "event" "a" = some (binding "a" "event") :=
  ((index_exact crossed_reachable).2.1 "a" rfl "event" (binding "a" "event")).mpr ⟨rfl, rfl⟩

end Iii.TriggerStore
