import Iii.Update.Ops

/-! The operations of `BuiltinKvStore` (`builtins/kv.rs`).

Each operation changes the store under one write lock, and then, in a second step,
marks the scope as dirty. Here an operation is its locked section: the new store,
what it returns, and the mark it is going to make. -/
namespace Iii.Kv
open Lib

/-- `IndexMap<String, Arc<Value>>`: entries in insertion order. -/
abbrev Scope : Type := List (String × Value)

/-- `HashMap<String, Scope>`. -/
abbrev Store : Type := String → Option Scope

inductive DirtyOp where
  | upsert
  | delete
  deriving DecidableEq

/-- What a locked section leaves to be done. -/
abbrev Mark : Type := String × DirtyOp

structure Outcome (α : Type) where
  store : Store
  result : α
  mark : Option Mark

/-- `store.entry(index).or_default()`. -/
def entry (store : Store) (index : String) : Scope := (store index).getD []

def put (store : Store) (index : String) (scope : Scope) : Store := Function.update store index (some scope)

/-! ### Values -/

structure StreamSetResult where
  oldValue : Option Value
  newValue : Value

def set (index key : String) (data : Value) (store : Store) : Outcome StreamSetResult :=
  let scope := entry store index
  ⟨put store index (Assoc.insert scope key data), ⟨Assoc.get? scope key, data⟩, some (index, .upsert)⟩

/-- The mark after `shift_remove`: an emptied scope is deleted. -/
def removalMark (index : String) (scope : Scope) : Mark :=
  (index, if scope.isEmpty then .delete else .upsert)

def delete (index key : String) (store : Store) : Outcome (Option Value) :=
  match store index with
  | some scope =>
    match Assoc.get? scope key with
    | some removed =>
      let scope := Assoc.erase scope key
      ⟨put store index scope, some removed, some (removalMark index scope)⟩
    | none => ⟨store, none, none⟩
  | none => ⟨store, none, none⟩

structure StreamUpdateResult where
  oldValue : Option Value
  newValue : Value
  errors : List Update.UpdateOpError

def update (index key : String) (ops : List Update.UpdateOp) (store : Store) : Outcome StreamUpdateResult :=
  let scope := entry store index
  let current := Assoc.get? scope key
  let (updated, errors) := Update.applyUpdateOps current ops
  ⟨put store index (Assoc.insert scope key updated), ⟨current, updated, errors⟩, some (index, .upsert)⟩

/-! ### Locks -/

structure KvLockEntry where
  owner : String
  expiresAtMs : I64
  deriving DecidableEq

def KvLockEntry.isExpired (e : KvLockEntry) (nowMs : I64) : Bool := e.expiresAtMs.1 ≤ nowMs.1

/-- `serde_json::to_value`. -/
def KvLockEntry.toValue (e : KvLockEntry) : Value :=
  .object [("expires_at_ms", .number (.ofI64 e.expiresAtMs)), ("owner", .string e.owner)]

/-- `KvLockEntry::deserialize`: an object with both fields, or their sequence. -/
def KvLockEntry.deserialize : Value → Option KvLockEntry
  | .object members =>
    match Assoc.get? members "owner", Assoc.get? members "expires_at_ms" with
    | some (.string owner), some (.number n) => n.asI64.map (⟨owner, ·⟩)
    | _, _ => none
  | .array [.string owner, .number n] => n.asI64.map (⟨owner, ·⟩)
  | _ => none

/-- `x as i64` of a `u64`. -/
def asI64 (n : Fin (2 ^ 64)) : I64 :=
  if h : n.1 < 2 ^ 63 then ⟨n.1, by omega⟩ else ⟨(n.1 : Int) - 2 ^ 64, by have := n.2; omega⟩

def maxI64 : I64 := ⟨2 ^ 63 - 1, by decide⟩
def minI64 : I64 := ⟨-2 ^ 63, by decide⟩

def saturatingAdd (a b : I64) : I64 :=
  if h : a.1 + b.1 < -2 ^ 63 then minI64
  else if h' : 2 ^ 63 ≤ a.1 + b.1 then maxI64
  else ⟨a.1 + b.1, by omega⟩

def expiry (nowMs : I64) (ttlMs : Fin (2 ^ 64)) : I64 := saturatingAdd nowMs (asI64 ttlMs)

/-- Free, expired, or not a lock at all. -/
def canAcquire (scope : Scope) (key : String) (nowMs : I64) : Bool :=
  match Assoc.get? scope key with
  | none => true
  | some value =>
    match KvLockEntry.deserialize value with
    | some e => e.isExpired nowMs
    | none => true

def tryAcquireLock (index key owner : String) (ttlMs : Fin (2 ^ 64)) (nowMs : I64) (store : Store) :
    Outcome Bool :=
  let scope := entry store index
  if canAcquire scope key nowMs then
    ⟨put store index (Assoc.insert scope key (KvLockEntry.toValue ⟨owner, expiry nowMs ttlMs⟩)), true,
      some (index, .upsert)⟩
  else ⟨put store index scope, false, none⟩

def shouldRemove (scope : Scope) (key owner : String) : Bool :=
  match Assoc.get? scope key with
  | some value =>
    match KvLockEntry.deserialize value with
    | some e => e.owner = owner
    | none => false
  | none => false

def releaseLock (index key owner : String) (store : Store) : Outcome Bool :=
  match store index with
  | some scope =>
    if shouldRemove scope key owner then
      let scope := Assoc.erase scope key
      ⟨put store index scope, true, some (removalMark index scope)⟩
    else ⟨store, false, none⟩
  | none => ⟨store, false, none⟩

/-! ### What is kept on disk -/

/-- A scope as persistence sees it: an empty one is no scope. -/
def view (store : Store) (index : String) : Option Scope := (store index).filter (!·.isEmpty)

inductive Operation where
  | set (index key : String) (data : Value)
  | delete (index key : String)
  | tryAcquireLock (index key owner : String) (ttlMs : Fin (2 ^ 64)) (nowMs : I64)
  | releaseLock (index key owner : String)
  | update (index key : String) (ops : List Update.UpdateOp)

/-- The store after an operation, and the mark to come. -/
def Operation.apply : Operation → Store → Store × Option Mark
  | .set index key data, store => ((Kv.set index key data store).store, (Kv.set index key data store).mark)
  | .delete index key, store => ((Kv.delete index key store).store, (Kv.delete index key store).mark)
  | .tryAcquireLock index key owner ttlMs nowMs, store =>
    let o := Kv.tryAcquireLock index key owner ttlMs nowMs store
    (o.store, o.mark)
  | .releaseLock index key owner, store =>
    ((Kv.releaseLock index key owner store).store, (Kv.releaseLock index key owner store).mark)
  | .update index key ops, store =>
    ((Kv.update index key ops store).store, (Kv.update index key ops store).mark)

@[simp] theorem view_put_of_ne {store : Store} {index other : String} {scope : Scope} (h : other ≠ index) :
    view (put store index scope) other = view store other := by
  unfold view put
  rw [Function.update_of_ne h]

/-- Creating an empty scope shows nowhere. -/
theorem view_put_entry (store : Store) (index other : String) :
    view (put store index (entry store index)) other = view store other := by
  by_cases h : other = index
  · subst h
    unfold view put entry
    rw [Function.update_self]
    cases store other <;> simp
  · exact view_put_of_ne h

/-- A scope whose persisted view an operation changes is the one it is about to mark. -/
theorem Operation.view_apply (op : Operation) (store : Store) (index : String)
    (h : view (op.apply store).1 index ≠ view store index) :
    ∃ d, (op.apply store).2 = some (index, d) := by
  have hput : ∀ {i : String} {scope : Scope}, view (put store i scope) index ≠ view store index → i = index := by
    intro i scope h
    by_contra hne
    exact h (view_put_of_ne (Ne.symm hne))
  cases op with
  | set i key data => exact ⟨.upsert, by rw [← hput h]; rfl⟩
  | update i key ops => exact ⟨.upsert, by rw [← hput h]; rfl⟩
  | delete i key =>
    simp only [apply, Kv.delete] at h ⊢
    cases hs : store i with
    | none => simp [hs] at h
    | some scope =>
      cases hg : Assoc.get? scope key with
      | none => simp [hs, hg] at h
      | some removed =>
        simp only [hs, hg] at h ⊢
        rw [hput h]
        exact ⟨_, rfl⟩
  | tryAcquireLock i key owner ttlMs nowMs =>
    simp only [apply, Kv.tryAcquireLock] at h ⊢
    by_cases hfree : canAcquire (entry store i) key nowMs = true
    · rw [if_pos hfree] at h ⊢
      rw [hput h]
      exact ⟨.upsert, rfl⟩
    · rw [if_neg hfree] at h
      exact absurd (view_put_entry store i index) h
  | releaseLock i key owner =>
    simp only [apply, Kv.releaseLock] at h ⊢
    cases hs : store i with
    | none => simp [hs] at h
    | some scope =>
      simp only [hs] at h ⊢
      by_cases howner : shouldRemove scope key owner = true
      · rw [if_pos howner] at h ⊢
        rw [hput h]
        exact ⟨_, rfl⟩
      · rw [if_neg howner] at h
        exact absurd rfl h

end Iii.Kv
