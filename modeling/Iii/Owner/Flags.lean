import Iii.Engine.Functions
import Iii.Hooks.Task

/-! What the state of an observer follows from (`observer/owner.rs`, `observer/lifecycle.rs`).

A connection that speaks `observe.v1` is told which observers its function has, and acks each of them. -/
namespace Iii.Owner
open Hooks (ErrorBody)

/-- Connections are UUIDs. -/
abbrev Conn := Nat

/-- Namespace and id. -/
abbrev FnKey := String × String

structure Announcement where
  owner : Conn
  revision : Nat
  generation : Nat
deriving DecidableEq

structure Flags where
  observingConnected : Bool
  functionAvailable : Bool
  targetAvailable : Bool
  ownerAcked : Bool
  announced : Option Announcement
  rejectedByOwner : Bool
  activatedOnce : Bool
  failed : Option ErrorBody
  disposed : Option ErrorBody
deriving DecidableEq

inductive ObserverState where
  | pending | active | suspended | error | disposed
deriving DecidableEq

/-- The state that follows from the flags, and its reason. -/
def Flags.derive (function target : FnKey) (flags : Flags) : ObserverState × Option ErrorBody :=
  match flags.disposed, flags.failed with
  | some reason, _ => (.disposed, some reason)
  | none, some error => (.error, some error)
  | none, none =>
    if !flags.observingConnected then
      (.suspended, some
        { code := "OBSERVER_DISCONNECTED"
          message :=
            "the observing worker disconnected; the observer is kept until it reattaches or the grace period ends" })
    else if !flags.functionAvailable then
      (.pending, some
        { code := "OWNER_UNAVAILABLE"
          message := "no worker hosts `" ++ function.2 ++ "` in namespace `" ++ function.1 ++ "`" })
    else if !flags.targetAvailable then
      (if flags.activatedOnce then .suspended else .pending, some
        { code := "TARGET_UNAVAILABLE"
          message := "the target `" ++ target.2 ++ "` is not registered in namespace `" ++ target.1 ++ "`" })
    -- Waiting for the owner's `observerack`.
    else if !flags.ownerAcked then (.pending, none)
    else (.active, none)

/-- An ack of the connection that was told, for what it was told last. -/
def State.answers (flags : Flags) (connection : Conn) (revision : Nat) : Bool :=
  flags.announced.any fun announced => announced.owner = connection ∧ revision ≥ announced.revision

end Iii.Owner
