import Iii.Lib.System
import Mathlib.Data.Finset.Basic

/-! Calls, their answers, and the connections that may end them (`invocation/mod.rs`,
`worker_connections/traits.rs`, `engine/mod.rs`).

A call is filed in one map under the id its caller chose, with the sending half of a
one-shot channel. Whoever takes the entry out answers the call: the result of a worker,
a refusal of the outbound writer, or the teardown of a connection that tracks the id. -/
namespace Iii.Engine.Invocation
open Lib

variable {Id R : Type} [DecidableEq Id]

/-- Where the handler of a call runs. -/
inductive Target where
  | builtin
  | worker (w : Nat)
  deriving DecidableEq

/-- What `handle_invocation_inner` is called with. `caller` is the connection that tracks
the call, absent where the caller gave no id. -/
structure Call (Id : Type) where
  id : Id
  workerId : Option Nat
  caller : Option Nat
  target : Target

/-- What a call ends with. -/
inductive Outcome (R : Type) where
  | refused
  | returned (r : R)
  | stopped
  | sendFailed
  | tooLarge
  | replied (w : Nat) (r : R)
  | closed

/-- The one-shot channel of a call, by where its sender is: in the map, in the hands of the
writer of a connection, used, or dropped. -/
inductive Channel (R : Type) where
  | filed
  | refusing (w : Nat)
  | sent (outcome : Outcome R)
  | closed

inductive Stage (R : Type) where
  | idle
  | entering
  | handling
  | waiting
  | ended (outcome : Outcome R)
  | done (outcome : Outcome R)
  | cancelled

/-- The call has its drop guard. -/
def Stage.Active (stage : Stage R) : Prop := stage = .entering ∨ stage = .handling ∨ stage = .waiting

inductive Cleanup (Id : Type) where
  | live
  | claimed
  | halting (ids : Finset Id)
  | finished

/-- A message over the limit, in the hands of the writer. `held` is the entry it took out
of the map, and `untracked` whether the caller has dropped the id. -/
structure Refusal (Id : Type) where
  id : Id
  held : Option Nat
  untracked : Bool

/-- The engine, with what has happened: the results workers sent, the calls that were
delivered to their worker and those it has answered since, and the calls whose refusal
was cut short. -/
structure State (Id R : Type) where
  invocations : Id → Option Nat
  channel : Nat → Channel R
  stage : Nat → Stage R
  tracked : Nat → Finset Id
  cleanup : Nat → Cleanup Id
  outbox : Nat → List Nat
  replies : List (Nat × Id × R)
  refusals : Nat → Option (Refusal Id)
  sent : List (Nat × Id × R)
  delivered : Nat → Prop
  answered : Nat → Prop
  cut : Nat → Prop

namespace State

def empty : State Id R where
  invocations := fun _ => none
  channel := fun _ => .filed
  stage := fun _ => .idle
  tracked := fun _ => ∅
  cleanup := fun _ => .live
  outbox := fun _ => []
  replies := []
  refusals := fun _ => none
  sent := []
  delivered := fun _ => False
  answered := fun _ => False
  cut := fun _ => False

/-- What becomes of the sender in the entry of `id` when the entry goes. -/
def withSender (st : State Id R) (id : Id) (channel : Channel R) : Nat → Channel R :=
  fun c => if st.invocations id = some c then channel else st.channel c

/-- Drop the entry of `id`, and with it the sender it holds. -/
def drop (st : State Id R) (id : Id) : State Id R :=
  { st with invocations := Function.update st.invocations id none
            channel := st.withSender id .closed }

/-- `DashMap::insert`: an entry that was there is dropped. -/
def insert (st : State Id R) (id : Id) (c : Nat) : State Id R :=
  { st with invocations := Function.update st.invocations id (some c)
            channel := st.withSender id .closed }

/-- Take the entry out and answer its call: `remove` and `send`. -/
def settle (st : State Id R) (id : Id) (outcome : Outcome R) : State Id R :=
  { st with invocations := Function.update st.invocations id none
            channel := st.withSender id (.sent outcome) }

def setStage (st : State Id R) (c : Nat) (stage : Stage R) : State Id R :=
  { st with stage := Function.update st.stage c stage }

def track (st : State Id R) (w : Nat) (id : Id) : State Id R :=
  { st with tracked := Function.update st.tracked w (Insert.insert id (st.tracked w)) }

/-- `remove_invocation` of a connection that may not be known. -/
def untrack? (st : State Id R) (w : Option Nat) (id : Id) : State Id R :=
  { st with tracked := fun w' => if w = some w' then (st.tracked w').erase id else st.tracked w' }

def untrack (st : State Id R) (w : Nat) (id : Id) : State Id R := st.untrack? (some w) id

end State

/-- The calls of a run, by number. -/
abbrev Calls (Id : Type) := Nat → Call Id

/-- One section of a call, of a read loop, of a writer or of a teardown. -/
inductive Step (calls : Calls Id) : State Id R → State Id R → Prop
  | refuse (st : State Id R) (c : Nat) (h : st.stage c = .idle) :
      Step calls st (st.setStage c (.ended .refused))
  | start (st : State Id R) (c : Nat) (h : st.stage c = .idle) :
      Step calls st ((st.insert (calls c).id c).setStage c .entering)
  | enter (st : State Id R) (c a : Nat) (h : st.stage c = .entering) (hcaller : (calls c).caller = some a)
      (hlive : st.cleanup a = .live) :
      Step calls st ((st.track a (calls c).id).setStage c .handling)
  | enterUntracked (st : State Id R) (c : Nat) (h : st.stage c = .entering)
      (hcaller : (calls c).caller = none) :
      Step calls st (st.setStage c .handling)
  | enterStopped (st : State Id R) (c a : Nat) (h : st.stage c = .entering)
      (hcaller : (calls c).caller = some a) (hclaimed : st.cleanup a ≠ .live) :
      Step calls st ((st.setStage c (.ended .stopped)).drop (calls c).id)
  | handled (st : State Id R) (c : Nat) (r : R) (h : st.stage c = .handling)
      (htarget : (calls c).target = .builtin) :
      Step calls st ((st.setStage c (.ended (.returned r))).drop (calls c).id)
  | targetStopped (st : State Id R) (c w : Nat) (h : st.stage c = .handling)
      (htarget : (calls c).target = .worker w) (hclaimed : st.cleanup w ≠ .live) :
      Step calls st ((st.setStage c (.ended .stopped)).drop (calls c).id)
  | sendFailed (st : State Id R) (c w : Nat) (h : st.stage c = .handling)
      (htarget : (calls c).target = .worker w) :
      Step calls st ((st.setStage c (.ended .sendFailed)).drop (calls c).id)
  | deliver (st : State Id R) (c w : Nat) (h : st.stage c = .handling)
      (htarget : (calls c).target = .worker w) (hlive : st.cleanup w = .live) :
      Step calls st
        { (st.track w (calls c).id).setStage c .waiting with
          outbox := Function.update st.outbox w (st.outbox w ++ [c])
          delivered := Function.update st.delivered c True }
  | receive (st : State Id R) (c : Nat) (outcome : Outcome R) (h : st.stage c = .waiting)
      (hchannel : st.channel c = .sent outcome) :
      Step calls st ((st.setStage c (.ended outcome)).drop (calls c).id)
  | receiveClosed (st : State Id R) (c : Nat) (h : st.stage c = .waiting) (hchannel : st.channel c = .closed) :
      Step calls st ((st.setStage c (.ended .closed)).drop (calls c).id)
  | cancel (st : State Id R) (c : Nat) (h : (st.stage c).Active) :
      Step calls st ((st.setStage c .cancelled).drop (calls c).id)
  /-- The task of the call sends the result to its caller and forgets the id. -/
  | finish (st : State Id R) (c : Nat) (outcome : Outcome R) (h : st.stage c = .ended outcome) :
      Step calls st ((st.untrack? (calls c).caller (calls c).id).setStage c (.done outcome))
  /-- A worker sends an `InvocationResult`, with any id. -/
  | reply (st : State Id R) (w : Nat) (id : Id) (r : R) :
      Step calls st
        { st.untrack w id with
          replies := (w, id, r) :: st.replies
          sent := (w, id, r) :: st.sent
          answered := fun c => st.answered c ∨
            (st.delivered c ∧ (calls c).id = id ∧ (calls c).target = .worker w) }
  | answer (st : State Id R) (before after : List (Nat × Id × R)) (w : Nat) (id : Id) (r : R)
      (h : st.replies = before ++ (w, id, r) :: after) :
      Step calls st { st.settle id (.replied w r) with replies := before ++ after }
  | written (st : State Id R) (w c : Nat) (rest : List Nat) (h : st.outbox w = c :: rest)
      (hwriter : st.refusals w = none) :
      Step calls st { st with outbox := Function.update st.outbox w rest }
  | refuseTake (st : State Id R) (w c : Nat) (rest : List Nat) (h : st.outbox w = c :: rest)
      (hwriter : st.refusals w = none) :
      Step calls st
        { st with
          outbox := Function.update st.outbox w rest
          refusals := Function.update st.refusals w
            (some ⟨(calls c).id, st.invocations (calls c).id, false⟩)
          invocations := Function.update st.invocations (calls c).id none
          channel := st.withSender (calls c).id (.refusing w) }
  | refuseUntrack (st : State Id R) (w c : Nat) (id : Id) (h : st.refusals w = some ⟨id, some c, false⟩) :
      Step calls st
        { st.untrack? (calls c).workerId id with
          refusals := Function.update st.refusals w (some ⟨id, some c, true⟩) }
  /-- The caller is not in the worker registry. -/
  | refuseMissing (st : State Id R) (w c : Nat) (id : Id) (h : st.refusals w = some ⟨id, some c, false⟩) :
      Step calls st { st with refusals := Function.update st.refusals w (some ⟨id, some c, true⟩) }
  | refuseSend (st : State Id R) (w c : Nat) (id : Id) (h : st.refusals w = some ⟨id, some c, true⟩) :
      Step calls st
        { st with
          channel := Function.update st.channel c (.sent .tooLarge)
          refusals := Function.update st.refusals w (some ⟨id, none, true⟩) }
  | refuseEnd (st : State Id R) (w : Nat) (id : Id) (untracked : Bool)
      (h : st.refusals w = some ⟨id, none, untracked⟩) :
      Step calls st { st.untrack w id with refusals := Function.update st.refusals w none }
  /-- The writer is aborted when its connection ends, wherever it stands. -/
  | abortHeld (st : State Id R) (w c : Nat) (id : Id) (untracked : Bool)
      (h : st.refusals w = some ⟨id, some c, untracked⟩) :
      Step calls st
        { st with
          outbox := Function.update st.outbox w []
          channel := Function.update st.channel c .closed
          refusals := Function.update st.refusals w none
          cut := Function.update st.cut c True }
  | abort (st : State Id R) (w : Nat) (h : ∀ refusal, st.refusals w = some refusal → refusal.held = none) :
      Step calls st
        { st with
          outbox := Function.update st.outbox w []
          refusals := Function.update st.refusals w none }
  | claim (st : State Id R) (w : Nat) (h : st.cleanup w = .live) :
      Step calls st { st with cleanup := Function.update st.cleanup w .claimed }
  | drain (st : State Id R) (w : Nat) (h : st.cleanup w = .claimed) :
      Step calls st
        { st with
          cleanup := Function.update st.cleanup w (.halting (st.tracked w))
          tracked := Function.update st.tracked w ∅ }
  | halt (st : State Id R) (w : Nat) (ids : Finset Id) (id : Id) (h : st.cleanup w = .halting ids)
      (hid : id ∈ ids) :
      Step calls st
        { st.settle id .stopped with
          cleanup := Function.update st.cleanup w (.halting (ids.erase id)) }
  | cleaned (st : State Id R) (w : Nat) (h : st.cleanup w = .halting ∅) :
      Step calls st { st with cleanup := Function.update st.cleanup w .finished }

def system (calls : Calls Id) : System (State Id R) where
  Init := fun st => st = State.empty
  Step := Step calls

/-! ### Whoever holds the sender answers the call -/

structure Inv (calls : Calls Id) (st : State Id R) : Prop where
  /-- The map holds the sender of a call in progress, under its id. -/
  entry : ∀ id c, st.invocations id = some c →
    (calls c).id = id ∧ (st.stage c).Active ∧ st.channel c = .filed
  filed : ∀ c, (st.stage c).Active → st.channel c = .filed → st.invocations (calls c).id = some c
  refusal : ∀ w id c u, st.refusals w = some ⟨id, some c, u⟩ →
    (calls c).id = id ∧ st.channel c = .refusing w ∧ st.stage c ≠ .idle
  refusing : ∀ w c, st.channel c = .refusing w → ∃ u, st.refusals w = some ⟨(calls c).id, some c, u⟩
  fresh : ∀ c, st.stage c = .idle → st.channel c = .filed
  outbox : ∀ w c, c ∈ st.outbox w → st.stage c ≠ .idle

variable {calls : Calls Id} {st st' : State Id R} {c : Nat} {stage : Stage R}

namespace Inv

omit [DecidableEq Id] in
theorem empty : Inv calls (State.empty : State Id R) := by
  constructor <;> simp [State.empty, Stage.Active]

omit [DecidableEq Id] in
/-- What a step does to tracking, cleanups and replies is of no matter here. -/
theorem frame (inv : Inv calls st) (hinvocations : st'.invocations = st.invocations)
    (hchannel : st'.channel = st.channel) (hstage : st'.stage = st.stage) (hrefusals : st'.refusals = st.refusals)
    (houtbox : ∀ w c, c ∈ st'.outbox w → c ∈ st.outbox w) : Inv calls st' := by
  obtain ⟨entry, filed, refusal, refusing, fresh, outbox⟩ := inv
  rw [← hinvocations, ← hchannel, ← hstage] at *
  rw [← hrefusals] at *
  exact ⟨entry, filed, refusal, refusing, fresh, fun w c hc => outbox w c (houtbox w c hc)⟩

omit [DecidableEq Id] in
theorem advance (inv : Inv calls st) (h : (st.stage c).Active) (h' : stage.Active) :
    Inv calls (st.setStage c stage) := by
  obtain ⟨entry, filed, refusal, refusing, fresh, outbox⟩ := inv
  constructor <;> dsimp only [State.setStage] <;> grind -ring -linarith [Function.update_apply, Stage.Active]

omit [DecidableEq Id] in
theorem close (inv : Inv calls st) (h : ¬ (st.stage c).Active) (h' : ¬ stage.Active) (hidle : stage ≠ .idle) :
    Inv calls (st.setStage c stage) := by
  obtain ⟨entry, filed, refusal, refusing, fresh, outbox⟩ := inv
  constructor <;> dsimp only [State.setStage] <;> grind -ring -linarith [Function.update_apply]

/-- The end of a call, with its drop guard. -/
theorem ends (inv : Inv calls st) (h' : ¬ stage.Active) (hidle : stage ≠ .idle) :
    Inv calls ((st.setStage c stage).drop (calls c).id) := by
  obtain ⟨entry, filed, refusal, refusing, fresh, outbox⟩ := inv
  constructor <;> dsimp only [State.setStage, State.drop] <;>
    grind -ring -linarith [Function.update_apply, State.withSender, Stage.Active]

theorem settle (inv : Inv calls st) (id : Id) (outcome : Outcome R) : Inv calls (st.settle id outcome) := by
  obtain ⟨entry, filed, refusal, refusing, fresh, outbox⟩ := inv
  constructor <;> dsimp only [State.settle] <;> grind -ring -linarith [Function.update_apply, State.withSender, Stage.Active]

theorem start (inv : Inv calls st) (h : st.stage c = .idle) :
    Inv calls ((st.insert (calls c).id c).setStage c .entering) := by
  obtain ⟨entry, filed, refusal, refusing, fresh, outbox⟩ := inv
  constructor <;> dsimp only [State.setStage, State.insert] <;>
    grind -ring -linarith [Function.update_apply, State.withSender, Stage.Active]

theorem refuseTake (inv : Inv calls st) {w : Nat} (h : c ∈ st.outbox w) (hwriter : st.refusals w = none) :
    Inv calls { st with
      refusals := Function.update st.refusals w (some ⟨(calls c).id, st.invocations (calls c).id, false⟩)
      invocations := Function.update st.invocations (calls c).id none
      channel := st.withSender (calls c).id (.refusing w) } := by
  obtain ⟨entry, filed, refusal, refusing, fresh, outbox⟩ := inv
  refine ⟨?_, ?_, ?_, ?_, ?_, outbox⟩
  · grind -ring -linarith [Function.update_apply, State.withSender]
  · grind -ring -linarith [Function.update_apply, State.withSender, Stage.Active]
  · grind -ring -linarith [Function.update_apply, State.withSender, Stage.Active]
  · intro w' c' hchannel
    by_cases hentry : st.invocations (calls c).id = some c'
    · simp only [State.withSender, hentry, if_true, Channel.refusing.injEq] at hchannel
      subst hchannel
      refine ⟨false, ?_⟩
      dsimp only
      rw [Function.update_self, hentry, (entry _ _ hentry).1]
    · simp only [State.withSender, hentry, if_false] at hchannel
      obtain ⟨u, hu⟩ := refusing w' c' hchannel
      refine ⟨u, ?_⟩
      dsimp only
      rw [Function.update_of_ne, hu]
      rintro rfl
      cases hwriter.symm.trans hu
  · grind -ring -linarith [State.withSender, Stage.Active]

omit [DecidableEq Id] in
theorem refuseMark (inv : Inv calls st) {w : Nat} {id : Id} {u u' : Bool}
    (h : st.refusals w = some ⟨id, some c, u⟩) :
    Inv calls { st with refusals := Function.update st.refusals w (some ⟨id, some c, u'⟩) } := by
  obtain ⟨entry, filed, refusal, refusing, fresh, outbox⟩ := inv
  refine ⟨entry, filed, ?_, ?_, fresh, outbox⟩
  · grind -ring -linarith [Function.update_apply]
  · intro w' c' hchannel
    obtain ⟨v, hv⟩ := refusing w' c' hchannel
    by_cases hw : w' = w
    · subst hw
      cases h.symm.trans hv
      exact ⟨u', Function.update_self ..⟩
    · exact ⟨v, (Function.update_of_ne hw ..).trans hv⟩

omit [DecidableEq Id] in
/-- The writer lets go of the sender: it is used or dropped. -/
theorem refuseRelease (inv : Inv calls st) {w : Nat} {id : Id} {u : Bool} (channel : Channel R)
    (refusal' : Option (Refusal Id)) (h : st.refusals w = some ⟨id, some c, u⟩)
    (hchannel : channel ≠ .filed ∧ ∀ w, channel ≠ .refusing w)
    (hrefusal : ∀ r, refusal' = some r → r.held = none) :
    Inv calls { st with channel := Function.update st.channel c channel
                        refusals := Function.update st.refusals w refusal' } := by
  obtain ⟨entry, filed, refusal, refusing, fresh, outbox⟩ := inv
  constructor <;> dsimp only <;> grind -ring -linarith [Function.update_apply]

omit [DecidableEq Id] in
theorem refuseClear (inv : Inv calls st) {w : Nat} (h : ∀ r, st.refusals w = some r → r.held = none) :
    Inv calls { st with refusals := Function.update st.refusals w none } := by
  obtain ⟨entry, filed, refusal, refusing, fresh, outbox⟩ := inv
  constructor <;> dsimp only <;> grind -ring -linarith [Function.update_apply]

theorem step (inv : Inv calls st) (h : Step calls st st') : Inv calls st' := by
  cases h with
  | refuse c h => exact inv.close (by simp [h, Stage.Active]) (by simp [Stage.Active]) (by simp)
  | start c h => exact inv.start h
  | enter c a h hcaller hlive =>
    have hframe : Inv calls (st.track a (calls c).id) := inv.frame rfl rfl rfl rfl fun _ _ h => h
    exact hframe.advance (.inl h) (.inr (.inl rfl))
  | enterUntracked c h hcaller => exact inv.advance (.inl h) (.inr (.inl rfl))
  | enterStopped c a h hcaller hclaimed => exact inv.ends (by simp [Stage.Active]) (by simp)
  | handled c r h htarget => exact inv.ends (by simp [Stage.Active]) (by simp)
  | targetStopped c w h htarget hclaimed => exact inv.ends (by simp [Stage.Active]) (by simp)
  | sendFailed c w h htarget => exact inv.ends (by simp [Stage.Active]) (by simp)
  | deliver c w h htarget hlive =>
    have hadvance : Inv calls (st.setStage c .waiting) := inv.advance (.inr (.inl h)) (.inr (.inr rfl))
    obtain ⟨entry, filed, refusal, refusing, fresh, outbox⟩ := hadvance
    refine ⟨entry, filed, refusal, refusing, fresh, ?_⟩
    dsimp only [State.setStage, State.track] at outbox ⊢
    grind -ring -linarith [Function.update_apply]
  | receive c outcome h hchannel => exact inv.ends (by simp [Stage.Active]) (by simp)
  | receiveClosed c h hchannel => exact inv.ends (by simp [Stage.Active]) (by simp)
  | cancel c h => exact inv.ends (by simp [Stage.Active]) (by simp)
  | finish c outcome h =>
    have hframe : Inv calls (st.untrack? (calls c).caller (calls c).id) :=
      inv.frame rfl rfl rfl rfl fun _ _ h => h
    exact hframe.close (by simp [State.untrack?, h, Stage.Active]) (by simp [Stage.Active]) (by simp)
  | reply w id r => exact inv.frame rfl rfl rfl rfl fun _ _ h => h
  | answer before after w id r h => exact (inv.settle id (.replied w r)).frame rfl rfl rfl rfl fun _ _ h => h
  | written w c rest h hwriter =>
    refine inv.frame rfl rfl rfl rfl ?_
    grind -ring -linarith [Function.update_apply]
  | refuseTake w c rest h hwriter =>
    refine (inv.refuseTake (c := c) (w := w) ?_ hwriter).frame rfl rfl rfl rfl ?_
    · simp [h]
    · grind -ring -linarith [Function.update_apply]
  | refuseUntrack w c id h => exact (inv.refuseMark h).frame rfl rfl rfl rfl fun _ _ h => h
  | refuseMissing w c id h => exact inv.refuseMark h
  | refuseSend w c id h => exact inv.refuseRelease _ _ h (by simp) (by simp)
  | refuseEnd w id untracked h =>
    refine (inv.refuseClear (w := w) ?_).frame rfl rfl rfl rfl fun _ _ h => h
    simp [h]
  | abortHeld w c id untracked h =>
    refine (inv.refuseRelease .closed none h ?_ ?_).frame rfl rfl rfl rfl ?_
    · simp
    · simp
    · grind -ring -linarith [Function.update_apply]
  | abort w h =>
    refine (inv.refuseClear h).frame rfl rfl rfl rfl ?_
    grind -ring -linarith [Function.update_apply]
  | claim w h => exact inv.frame rfl rfl rfl rfl fun _ _ h => h
  | drain w h => exact inv.frame rfl rfl rfl rfl fun _ _ h => h
  | halt w ids id h hid => exact (inv.settle id .stopped).frame rfl rfl rfl rfl fun _ _ h => h
  | cleaned w h => exact inv.frame rfl rfl rfl rfl fun _ _ h => h

end Inv

/-! ### Where answers come from -/

/-- A result comes from the handler of the call, from the engine, or from a worker that sent
it under the id of the call. -/
def Legit (calls : Calls Id) (sent : List (Nat × Id × R)) (c : Nat) : Outcome R → Prop
  | .returned _ => (calls c).target = .builtin
  | .replied w r => (w, (calls c).id, r) ∈ sent
  | .refused | .stopped | .sendFailed | .tooLarge | .closed => True

structure Sourced (calls : Calls Id) (st : State Id R) : Prop where
  replies : ∀ reply ∈ st.replies, reply ∈ st.sent
  channel : ∀ c outcome, st.channel c = .sent outcome → Legit calls st.sent c outcome
  stage : ∀ c outcome, st.stage c = .ended outcome ∨ st.stage c = .done outcome →
    Legit calls st.sent c outcome

namespace Sourced

omit [DecidableEq Id] in
theorem empty : Sourced calls (State.empty : State Id R) := by
  constructor <;> simp [State.empty]

omit [DecidableEq Id] in
theorem frame (src : Sourced calls st) (hreplies : ∀ reply ∈ st'.replies, reply ∈ st.replies)
    (hchannel : ∀ c outcome, st'.channel c = .sent outcome → st.channel c = .sent outcome)
    (hstage : st'.stage = st.stage) (hsent : st'.sent = st.sent) : Sourced calls st' := by
  obtain ⟨replies, channel, stage⟩ := src
  constructor
  · rw [hsent]
    exact fun reply hreply => replies reply (hreplies reply hreply)
  · rw [hsent]
    exact fun c outcome h => channel c outcome (hchannel c outcome h)
  · rw [hsent, hstage]
    exact stage

omit [DecidableEq Id] in
theorem setStage (src : Sourced calls st)
    (h : ∀ outcome, stage = .ended outcome ∨ stage = .done outcome → Legit calls st.sent c outcome) :
    Sourced calls (st.setStage c stage) := by
  obtain ⟨replies, channel, stage⟩ := src
  refine ⟨replies, channel, ?_⟩
  dsimp only [State.setStage]
  grind -ring -linarith [Function.update_apply]

theorem drop (src : Sourced calls st) (id : Id) : Sourced calls (st.drop id) := by
  refine src.frame (fun _ h => h) ?_ rfl rfl
  dsimp only [State.drop]
  grind -ring -linarith [State.withSender]

theorem settle (src : Sourced calls st) (inv : Inv calls st) {id : Id} {outcome : Outcome R}
    (h : ∀ c, (calls c).id = id → Legit calls st.sent c outcome) : Sourced calls (st.settle id outcome) := by
  obtain ⟨replies, channel, stage⟩ := src
  have entry := inv.entry
  refine ⟨replies, ?_, stage⟩
  dsimp only [State.settle]
  grind -ring -linarith [State.withSender]

theorem step (src : Sourced calls st) (inv : Inv calls st) (h : Step calls st st') : Sourced calls st' := by
  cases h with
  | refuse c h => exact src.setStage (by simp [Legit])
  | start c h =>
    have hinsert : Sourced calls (st.insert (calls c).id c) := by
      refine src.frame (fun _ h => h) ?_ rfl rfl
      dsimp only [State.insert]
      grind -ring -linarith [State.withSender]
    exact hinsert.setStage (by simp)
  | enter c a h hcaller hlive =>
    have hframe : Sourced calls (st.track a (calls c).id) := src.frame (fun _ h => h) (fun _ _ h => h) rfl rfl
    exact hframe.setStage (by simp)
  | enterUntracked c h hcaller => exact src.setStage (by simp)
  | enterStopped c a h hcaller hclaimed => exact (src.setStage (by simp [Legit])).drop _
  | handled c r h htarget => exact (src.setStage (by simp [Legit, htarget])).drop _
  | targetStopped c w h htarget hclaimed => exact (src.setStage (by simp [Legit])).drop _
  | sendFailed c w h htarget => exact (src.setStage (by simp [Legit])).drop _
  | deliver c w h htarget hlive =>
    have hstage : Sourced calls (st.setStage c .waiting) := src.setStage (by simp)
    exact hstage.frame (fun _ h => h) (fun _ _ h => h) rfl rfl
  | receive c outcome h hchannel =>
    refine (src.setStage ?_).drop _
    have hlegit := src.channel c outcome hchannel
    simpa using hlegit
  | receiveClosed c h hchannel => exact (src.setStage (by simp [Legit])).drop _
  | cancel c h => exact (src.setStage (by simp)).drop _
  | finish c outcome h =>
    have hframe : Sourced calls (st.untrack? (calls c).caller (calls c).id) :=
      src.frame (fun _ h => h) (fun _ _ h => h) rfl rfl
    refine hframe.setStage ?_
    have hlegit := src.stage c outcome (.inl h)
    simpa [State.untrack?] using hlegit
  | reply w id r =>
    obtain ⟨replies, channel, stage⟩ := src
    have hmono : ∀ c outcome, Legit calls st.sent c outcome → Legit calls ((w, id, r) :: st.sent) c outcome := by
      intro c outcome h
      cases outcome <;> simp_all [Legit]
    refine ⟨?_, fun c o h => hmono c o (channel c o h), fun c o h => hmono c o (stage c o h)⟩
    simp only [List.mem_cons]
    rintro reply (h | h)
    · exact .inl h
    · exact .inr (replies reply h)
  | answer before after w id r h =>
    have hmem : (w, id, r) ∈ st.sent := src.replies _ (by simp [h])
    have hsettle : Sourced calls (st.settle id (.replied w r)) :=
      src.settle inv fun c hid => by simpa [Legit, hid] using hmem
    refine hsettle.frame ?_ (fun _ _ h => h) rfl rfl
    dsimp only [State.settle]
    grind -ring -linarith
  | written w c rest h hwriter => exact src.frame (fun _ h => h) (fun _ _ h => h) rfl rfl
  | refuseTake w c rest h hwriter =>
    refine src.frame (fun _ h => h) ?_ rfl rfl
    dsimp only
    grind -ring -linarith [State.withSender]
  | refuseUntrack w c id h => exact src.frame (fun _ h => h) (fun _ _ h => h) rfl rfl
  | refuseMissing w c id h => exact src.frame (fun _ h => h) (fun _ _ h => h) rfl rfl
  | refuseSend w c id h =>
    obtain ⟨replies, channel, stage⟩ := src
    refine ⟨replies, ?_, stage⟩
    dsimp only
    grind -ring -linarith [Function.update_apply, Legit]
  | refuseEnd w id untracked h => exact src.frame (fun _ h => h) (fun _ _ h => h) rfl rfl
  | abortHeld w c id untracked h =>
    refine src.frame (fun _ h => h) ?_ rfl rfl
    dsimp only
    grind -ring -linarith [Function.update_apply]
  | abort w h => exact src.frame (fun _ h => h) (fun _ _ h => h) rfl rfl
  | claim w h => exact src.frame (fun _ h => h) (fun _ _ h => h) rfl rfl
  | drain w h => exact src.frame (fun _ h => h) (fun _ _ h => h) rfl rfl
  | halt w ids id h hid =>
    have hsettle : Sourced calls (st.settle id .stopped) := src.settle inv fun c _ => by simp [Legit]
    exact hsettle.frame (fun _ h => h) (fun _ _ h => h) rfl rfl
  | cleaned w h => exact src.frame (fun _ h => h) (fun _ _ h => h) rfl rfl

end Sourced

end Iii.Engine.Invocation
