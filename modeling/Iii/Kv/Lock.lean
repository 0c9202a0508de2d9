import Mathlib.Data.List.Chain
import Mathlib.Data.ZMod.Defs
import Iii.Kv.Store

/-! Locks in the KV store: who may take a lock, and until when.

A lock is an entry that names its owner and the time it expires. The clock is read by
the caller; here it does not go back from one call to the next. Other operations are
free to run, as long as they do not write the lock's key. -/
namespace Iii.Kv
open Lib

/-- What the store holds under a key. -/
def lockAt (store : Store) (index key : String) : Option Value :=
  (store index).bind fun scope => Assoc.get? scope key

/-! ### Entries -/

theorem asI64_ofI64 (i : I64) : (Number.ofI64 i).asI64 = some i := by
  unfold Number.ofI64
  split
  · rename_i h
    have hi : ((i.1.toNat : Nat) : Int) = i.1 := Int.toNat_of_nonneg h
    simp only [Number.asI64, I64.of, hi]
    rw [dif_pos i.2]
  · rename_i h
    have hi : -((((-i.1 - 1).toNat : Nat) : Int) + 1) = i.1 := by omega
    simp only [Number.asI64, I64.of, hi]
    rw [dif_pos i.2]

theorem deserialize_toValue (e : KvLockEntry) : KvLockEntry.deserialize e.toValue = some e := by
  simp only [KvLockEntry.toValue, KvLockEntry.deserialize, Assoc.get?_cons]
  simp [asI64_ofI64]

theorem get?_entry (store : Store) (index key : String) :
    Assoc.get? (entry store index) key = lockAt store index key := by
  unfold entry lockAt
  cases store index <;> rfl

theorem lockAt_put (store : Store) (index index' key : String) (scope : Scope) :
    lockAt (put store index scope) index' key =
      if index' = index then Assoc.get? scope key else lockAt store index' key := by
  unfold lockAt put
  by_cases h : index' = index
  · subst h
    rw [if_pos rfl, Function.update_self, Option.bind_some]
  · rw [if_neg h, Function.update_of_ne h]

/-! ### Calls -/

/-- A call, and the time on the clock when it is made. -/
structure Call where
  time : I64
  op : Operation

/-- An acquire reads the clock itself. -/
def Call.ReadsClock (c : Call) : Prop :=
  ∀ index key owner ttlMs nowMs, c.op = .tryAcquireLock index key owner ttlMs nowMs → nowMs = c.time

/-- Not a `set`, `delete` or `update` of the key. -/
def Call.Spares (index key : String) (c : Call) : Prop :=
  match c.op with
  | .set i k _ | .delete i k | .update i k _ => ¬ (i = index ∧ k = key)
  | _ => True

def run (store : Store) : List Call → Store
  | [] => store
  | c :: rest => run (c.op.apply store).1 rest

/-- No `release_lock` by `owner` returns true. -/
def Unreleased (index key owner : String) : Store → List Call → Prop
  | _, [] => True
  | store, c :: rest =>
    (c.op = .releaseLock index key owner → (releaseLock index key owner store).result = false) ∧
      Unreleased index key owner (c.op.apply store).1 rest

/-- `t + d`, capped at `i64::MAX`. -/
def deadline (t : I64) (d : Fin (2 ^ 64)) : Int := min (t.1 + d.1) (2 ^ 63 - 1)

/-- What the holder is promised of one more call: before the deadline nobody acquires, and
nobody else releases or changes the entry. -/
def Excluded (index key owner : String) (until_ : Int) (store : Store) (c : Call) : Prop :=
  c.time.1 < until_ →
    (∀ owner' ttlMs, c.op = .tryAcquireLock index key owner' ttlMs c.time →
      (tryAcquireLock index key owner' ttlMs c.time store).result = false) ∧
    (∀ owner', owner' ≠ owner → c.op = .releaseLock index key owner' →
      (releaseLock index key owner' store).result = false ∧
        lockAt (releaseLock index key owner' store).store index key = lockAt store index key)

/-- Mutual exclusion after `owner` has acquired at `t` for `d`: whatever is called from then on,
until a release by `owner` returns true, every call before the deadline is excluded. -/
def Exclusive (index key owner : String) (t : I64) (d : Fin (2 ^ 64)) (store : Store) : Prop :=
  ∀ (calls : List Call) (c : Call), ((t :: calls.map Call.time) ++ [c.time]).Pairwise (·.1 ≤ ·.1) →
    (∀ c' ∈ calls ++ [c], c'.ReadsClock ∧ c'.Spares index key) →
    Unreleased index key owner store calls →
    Excluded index key owner (deadline t d) (run store calls) c

/-! ### While the entry stands -/

/-- The store holds the lock of `e`. -/
def Holds (index key : String) (e : KvLockEntry) (store : Store) : Prop :=
  lockAt store index key = some e.toValue

section Holds
variable {index key : String} {e : KvLockEntry} {store : Store}

theorem canAcquire_of_holds (h : Holds index key e store) (nowMs : I64) :
    canAcquire (entry store index) key nowMs = e.isExpired nowMs := by
  unfold canAcquire
  rw [get?_entry, h]
  simp only [deserialize_toValue]

theorem shouldRemove_of_holds (h : Holds index key e store) {scope : Scope} (hs : store index = some scope)
    (owner : String) : shouldRemove scope key owner = decide (e.owner = owner) := by
  have hget : Assoc.get? scope key = some e.toValue := by
    have := h
    unfold Holds lockAt at this
    rw [hs, Option.bind_some] at this
    exact this
  unfold shouldRemove
  rw [hget]
  simp only [deserialize_toValue]

theorem Holds.scope (h : Holds index key e store) : ∃ scope, store index = some scope := by
  unfold Holds lockAt at h
  cases hs : store index with
  | none =>
    rw [hs] at h
    cases h
  | some scope => exact ⟨scope, rfl⟩

/-- Only the owner releases. -/
theorem release_result (h : Holds index key e store) (owner : String) :
    (releaseLock index key owner store).result = decide (e.owner = owner) := by
  obtain ⟨scope, hs⟩ := h.scope
  unfold releaseLock
  rw [hs]
  simp only [shouldRemove_of_holds h hs]
  by_cases howner : e.owner = owner <;> simp [howner]

theorem release_keeps (h : Holds index key e store) {owner : String} (howner : e.owner ≠ owner) :
    (releaseLock index key owner store).store = store := by
  obtain ⟨scope, hs⟩ := h.scope
  unfold releaseLock
  rw [hs]
  simp [shouldRemove_of_holds h hs, howner]

theorem acquire_result (h : Holds index key e store) {nowMs : I64} (hnow : nowMs.1 < e.expiresAtMs.1)
    (owner : String) (ttlMs : Fin (2 ^ 64)) :
    (tryAcquireLock index key owner ttlMs nowMs store).result = false := by
  have hfree := canAcquire_of_holds h nowMs
  rw [KvLockEntry.isExpired, decide_eq_false (by omega)] at hfree
  unfold tryAcquireLock
  simp [hfree]

theorem lockAt_erase_of_ne {i k : String} {scope : Scope} (hs : store i = some scope)
    (hne : ¬ (i = index ∧ k = key)) :
    lockAt (put store i (Assoc.erase scope k)) index key = lockAt store index key := by
  rw [lockAt_put]
  split
  · rename_i hi
    subst hi
    rw [Assoc.get?_erase, if_neg (fun hk => hne ⟨rfl, hk⟩)]
    unfold lockAt
    rw [hs, Option.bind_some]
  · rfl

theorem lockAt_insert_of_ne {i k : String} {v : Value} (hne : ¬ (i = index ∧ k = key)) :
    lockAt (put store i (Assoc.insert (entry store i) k v)) index key = lockAt store index key := by
  rw [lockAt_put]
  split
  · rename_i hi
    subst hi
    rw [Assoc.get?_insert, if_neg (fun hk => hne ⟨rfl, hk⟩), get?_entry]
  · rfl

/-- Before it expires, and unless its owner releases it, a lock stays through any call that
spares its key. -/
theorem holds_apply (h : Holds index key e store) {c : Call} (hclock : c.ReadsClock)
    (hspares : c.Spares index key) (htime : c.time.1 < e.expiresAtMs.1)
    (hrelease : c.op = .releaseLock index key e.owner →
      (releaseLock index key e.owner store).result = false) :
    Holds index key e (c.op.apply store).1 := by
  unfold Holds at h ⊢
  rw [← h]
  unfold Call.Spares at hspares
  cases hop : c.op with
  | set i k data =>
    rw [hop] at hspares
    exact lockAt_insert_of_ne hspares
  | update i k ops =>
    rw [hop] at hspares
    exact lockAt_insert_of_ne hspares
  | delete i k =>
    rw [hop] at hspares
    simp only [Operation.apply, Kv.delete]
    cases hs : store i with
    | none => rfl
    | some scope =>
      cases hg : Assoc.get? scope k with
      | none => simp only [hg]
      | some removed =>
        simp only [hg]
        exact lockAt_erase_of_ne hs hspares
  | tryAcquireLock i k owner ttlMs nowMs =>
    have hnow := hclock i k owner ttlMs nowMs hop
    subst hnow
    simp only [Operation.apply, Kv.tryAcquireLock]
    by_cases hfree : canAcquire (entry store i) k c.time = true
    · rw [if_pos hfree]
      refine lockAt_insert_of_ne ?_
      rintro ⟨rfl, rfl⟩
      rw [canAcquire_of_holds h, KvLockEntry.isExpired, decide_eq_true_iff] at hfree
      omega
    · rw [if_neg hfree, lockAt_put]
      split
      · rename_i hi
        subst hi
        rw [get?_entry]
      · rfl
  | releaseLock i k owner =>
    simp only [Operation.apply]
    by_cases hkey : i = index ∧ k = key
    · obtain ⟨rfl, rfl⟩ := hkey
      by_cases howner : e.owner = owner
      · subst howner
        have hresult := hrelease hop
        rw [release_result h] at hresult
        simp at hresult
      · rw [release_keeps h howner]
    · unfold Kv.releaseLock
      cases hs : store i with
      | none => rfl
      | some scope =>
        simp only
        split
        · exact lockAt_erase_of_ne hs hkey
        · rfl

/-- A whole run before the expiry keeps the lock. -/
theorem holds_run {calls : List Call} : ∀ {store : Store}, Holds index key e store →
    (∀ c ∈ calls, c.ReadsClock ∧ c.Spares index key ∧ c.time.1 < e.expiresAtMs.1) →
    Unreleased index key e.owner store calls → Holds index key e (run store calls) := by
  induction calls with
  | nil => exact fun h _ _ => h
  | cons c rest ih =>
    intro store h hcalls hunreleased
    obtain ⟨hclock, hspares, htime⟩ := hcalls c (List.mem_cons_self ..)
    exact ih (holds_apply h hclock hspares htime hunreleased.1)
      (fun c' hc' => hcalls c' (List.mem_cons_of_mem _ hc')) hunreleased.2

end Holds

/-! ### The expiry -/

variable {d : Fin (2 ^ 64)}

theorem asI64_small (h : d.1 < 2 ^ 63) : (asI64 d).1 = d.1 := by
  unfold asI64
  rw [dif_pos h]

theorem asI64_neg (h : ¬ d.1 < 2 ^ 63) : (asI64 d).1 = (d.1 : Int) - 2 ^ 64 := by
  unfold asI64
  rw [dif_neg h]

/-- A ttl that fits `i64` expires at the deadline. -/
theorem expiry_eq_deadline (h : d.1 < 2 ^ 63) (t : I64) :
    (expiry t d).1 = deadline t d := by
  have ht := t.2
  have hd := asI64_small h
  unfold expiry saturatingAdd deadline
  rw [dif_neg (by omega)]
  split
  · show ((2 : Int) ^ 63 - 1) = _
    omega
  · show t.1 + (asI64 d).1 = _
    omega

/-- One that does not is negative after the cast: the lock is expired when it is taken. -/
theorem expiry_le (h : ¬ d.1 < 2 ^ 63) (t : I64) : (expiry t d).1 ≤ t.1 := by
  have ht := t.2
  have hlt := d.2
  have hd := asI64_neg h
  unfold expiry saturatingAdd
  split
  · exact ht.1
  · rw [dif_neg (by omega)]
    show t.1 + (asI64 d).1 ≤ t.1
    omega

theorem holds_of_acquire {index key owner : String} {t : I64} {store : Store}
    (h : (tryAcquireLock index key owner d t store).result = true) :
    Holds index key ⟨owner, expiry t d⟩ (tryAcquireLock index key owner d t store).store := by
  unfold tryAcquireLock at h ⊢
  simp only at h ⊢
  split at h
  · rename_i hfree
    rw [if_pos hfree]
    unfold Holds
    rw [lockAt_put, if_pos rfl, Assoc.get?_insert, if_pos rfl]
  · cases h

/-! ### Mutual exclusion -/

/-- After a successful acquire, in any store, the lock excludes everybody else until its deadline
exactly when its ttl fits `i64`, or when there is no time before the deadline left. -/
theorem lock_exclusive_iff {index key owner : String} {t : I64} {d : Fin (2 ^ 64)} {store : Store}
    (h : (tryAcquireLock index key owner d t store).result = true) :
    Exclusive index key owner t d (tryAcquireLock index key owner d t store).store ↔
      d.1 < 2 ^ 63 ∨ t = maxI64 := by
  have hholds := holds_of_acquire h
  constructor
  · intro hexcl
    by_contra hnot
    obtain ⟨hbig, hmax⟩ := not_or.mp hnot
    have hmaxInt : t.1 ≠ 2 ^ 63 - 1 := fun heq => hmax (Subtype.ext heq)
    -- another owner calls at the same time
    have hnext := hexcl [] ⟨t, .tryAcquireLock index key owner d t⟩ (by simp)
      (by
        intro c hc
        rw [List.nil_append, List.mem_singleton] at hc
        subst hc
        refine ⟨?_, trivial⟩
        intro i k o ttl now hop
        cases hop
        rfl) trivial
    have htime : t.1 < deadline t d := by
      have := t.2
      unfold deadline
      omega
    have hfalse := (hnext htime).1 owner d rfl
    have hfree : canAcquire (entry (tryAcquireLock index key owner d t store).store index) key t = true := by
      rw [canAcquire_of_holds hholds, KvLockEntry.isExpired, decide_eq_true_iff]
      exact expiry_le hbig t
    have htrue : (tryAcquireLock index key owner d t (tryAcquireLock index key owner d t store).store).result =
        true := by
      rw [tryAcquireLock]
      simp only [hfree, if_true]
    rw [run, htrue] at hfalse
    cases hfalse
  · intro hd calls c htimes hcalls hunreleased htime
    -- before the deadline, which is after `t`
    have hge : t.1 ≤ c.time.1 := by
      rw [List.cons_append, List.pairwise_cons] at htimes
      exact htimes.1 c.time (by simp)
    have hfits : d.1 < 2 ^ 63 := by
      rcases hd with hd | rfl
      · exact hd
      · have : maxI64.1 = 2 ^ 63 - 1 := rfl
        unfold deadline at htime
        omega
    have hexpiry := expiry_eq_deadline hfits t
    have hbefore : ∀ c' ∈ calls, c'.time.1 ≤ c.time.1 := by
      intro c' hc'
      rw [List.pairwise_append] at htimes
      exact htimes.2.2 c'.time (List.mem_cons_of_mem _ (List.mem_map_of_mem hc')) c.time (by simp)
    have hrun : Holds index key ⟨owner, expiry t d⟩
        (run (tryAcquireLock index key owner d t store).store calls) := by
      refine holds_run hholds (fun c' hc' => ?_) hunreleased
      obtain ⟨hclock, hspares⟩ := hcalls c' (List.mem_append_left _ hc')
      refine ⟨hclock, hspares, ?_⟩
      have := hbefore c' hc'
      simp only [hexpiry]
      omega
    refine ⟨fun owner' ttlMs _ => ?_, fun owner' hne _ => ⟨?_, ?_⟩⟩
    · exact acquire_result hrun (by simp only [hexpiry]; exact htime) owner' ttlMs
    · rw [release_result hrun]
      simpa using Ne.symm hne
    · rw [release_keeps hrun (Ne.symm hne)]

/-- An hour on a free lock excludes. -/
theorem lock_exclusive_hour :
    Exclusive "locks" "k" "a" ⟨0, by decide⟩ 3600000
      (tryAcquireLock "locks" "k" "a" 3600000 ⟨0, by decide⟩ fun _ => none).store :=
  (lock_exclusive_iff (by decide)).mpr (.inl (by decide))

/-- The largest ttl becomes `-1`, and the lock is free again at once. -/
theorem lock_not_exclusive_max :
    (tryAcquireLock "locks" "k" "a" (2 ^ 64 - 1) ⟨0, by decide⟩ fun _ => none).result = true ∧
    (tryAcquireLock "locks" "k" "b" 1000 ⟨0, by decide⟩
      (tryAcquireLock "locks" "k" "a" (2 ^ 64 - 1) ⟨0, by decide⟩ fun _ => none).store).result = true ∧
    (0 : Int) < deadline ⟨0, by decide⟩ (2 ^ 64 - 1) ∧
    ¬ Exclusive "locks" "k" "a" ⟨0, by decide⟩ (2 ^ 64 - 1)
      (tryAcquireLock "locks" "k" "a" (2 ^ 64 - 1) ⟨0, by decide⟩ fun _ => none).store := by
  have hsecond : (tryAcquireLock "locks" "k" "b" 1000 ⟨0, by decide⟩
      (tryAcquireLock "locks" "k" "a" (2 ^ 64 - 1) ⟨0, by decide⟩ fun _ => none).store).result = true := by
    rfl
  refine ⟨by rfl, hsecond, by decide, fun hexcl => ?_⟩
  have hnext := hexcl [] ⟨⟨0, by decide⟩, .tryAcquireLock "locks" "k" "b" 1000 ⟨0, by decide⟩⟩ (by simp)
    (by
      intro c hc
      rw [List.nil_append, List.mem_singleton] at hc
      subst hc
      refine ⟨?_, trivial⟩
      intro i k o ttl now hop
      cases hop
      rfl) trivial
  have hfalse := (hnext (by decide)).1 "b" 1000 rfl
  rw [run, hsecond] at hfalse
  cases hfalse

end Iii.Kv
