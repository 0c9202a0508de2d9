import Iii.Observers.Registry

/-! A disposed observer stays disposed: while its tombstone lasts, the replay of its `observe` by the
worker that had it is answered with the disposal, on whatever connection the worker is by then. -/
namespace Iii.Observers
open Lib

variable {S : Type} {s s' : State S} {C : Config} {id other : String} {c d : Conn} {u : Nat}

/-! ### Sweeping -/

theorem length_insert_le (l : List (String × Tombstone)) (id : String) (t : Tombstone) :
    (Assoc.insert l id t).length ≤ l.length + 1 := by
  have hkeys := congrArg List.length (Assoc.keys_insert l id t)
  rw [List.length_map] at hkeys
  rw [hkeys]
  split <;> simp

theorem sweepTombstones_sublist (now : Nat) (tombstones : List (String × Tombstone)) (order : List (Nat × String)) :
    (sweepTombstones now tombstones order).1.Sublist tombstones := by
  induction order generalizing tombstones with
  | nil => exact List.Sublist.refl _
  | cons entry rest ih =>
    obtain ⟨oldest, id⟩ := entry
    show List.Sublist (if now < oldest && tombstones.length ≤ maxTombstones then (tombstones, _) else _).1 _
    split
    · exact List.Sublist.refl _
    · refine (ih _).trans ?_
      split
      · exact List.filter_sublist
      · exact List.Sublist.refl _

/-- While there are not too many, a tombstone that lasts is not swept. -/
theorem get?_sweepTombstones {now : Nat} {tombstones : List (String × Tombstone)} (order : List (Nat × String))
    {t : Tombstone} (hget : Assoc.get? tombstones id = some t) (hlasts : now < t.deadline)
    (hroom : tombstones.length ≤ maxTombstones) :
    Assoc.get? (sweepTombstones now tombstones order).1 id = some t := by
  induction order generalizing tombstones with
  | nil => exact hget
  | cons entry rest ih =>
    obtain ⟨oldest, old⟩ := entry
    rw [sweepTombstones]
    split
    · exact hget
    · rename_i hpop
      have hdue : oldest ≤ now := by simp_all
      split
      · rename_i holder
        apply ih
        · rw [Assoc.get?_erase]
          split
          · -- it would be the tombstone that is due
            rename_i heq
            subst heq
            rw [hget] at holder
            have hsame : t.deadline = oldest := by simpa using holder
            omega
          · exact hget
        · exact Nat.le_trans (List.filter_sublist.length_le) hroom
      · exact ih hget hroom

theorem sweepExpired_keeps {now : Nat} {expired : Conn → Option Expired} (queue : List (Nat × Conn × Nat)) {held : Nat}
    {e : Expired} (hget : expired c = some e) (hlasts : now < e.deadline) (hroom : held ≤ maxExpiredObservers) :
    (sweepExpired now expired queue held).1 c = some e := by
  induction queue generalizing expired held with
  | nil => exact hget
  | cons entry rest ih =>
    obtain ⟨oldest, old, count⟩ := entry
    show (if now < oldest && held ≤ maxExpiredObservers then (expired, _) else _).1 c = _
    split
    · exact hget
    · rename_i hpop
      have hdue : oldest ≤ now := by simp_all
      apply ih
      · split
        · rename_i holder
          by_cases heq : c = old
          · subst heq
            rw [hget] at holder
            have hsame : e.deadline = oldest := by simpa using holder
            omega
          · rw [Function.update_of_ne heq]
            exact hget
        · exact hget
      · omega

theorem sweepExpired_of_some {now : Nat} {expired : Conn → Option Expired} (queue : List (Nat × Conn × Nat)) {held : Nat}
    {e : Expired} (hget : (sweepExpired now expired queue held).1 c = some e) : expired c = some e := by
  induction queue generalizing expired held with
  | nil => exact hget
  | cons entry rest ih =>
    obtain ⟨oldest, old, count⟩ := entry
    rw [sweepExpired] at hget
    split at hget
    · exact hget
    · have hold := ih hget
      split at hold
      · by_cases heq : c = old
        · rw [heq, Function.update_self] at hold
          cases hold
        · rwa [Function.update_of_ne heq] at hold
      · exact hold

namespace State

/-! ### The tombstone -/

/-- The observer `id` is disposed and remembered for `d`, at least until `u`. -/
structure Grave (id : String) (d : Conn) (u : Nat) (s : State S) : Prop where
  gone : s.byId id = none
  tombstone : ∃ t, Assoc.get? s.tombstones id = some t ∧ t.connection = d ∧ u ≤ t.deadline

theorem get?_rememberTombstone (s : State S) (id : String) (t : Tombstone) (other : String) {v : Tombstone}
    (hget : (if id = other then some t else Assoc.get? s.tombstones other) = some v) (hlasts : s.now < v.deadline)
    (hroom : s.tombstones.length + 1 ≤ maxTombstones) :
    Assoc.get? (s.rememberTombstone id t).tombstones other = some v := by
  apply get?_sweepTombstones
  · rw [Assoc.get?_insert]
    exact hget
  · exact hlasts
  · exact Nat.le_trans (length_insert_le _ _ _) hroom

theorem length_rememberTombstone (s : State S) (id : String) (t : Tombstone) :
    (s.rememberTombstone id t).tombstones.length ≤ s.tombstones.length + 1 :=
  Nat.le_trans (sweepTombstones_sublist _ _ _).length_le (length_insert_le _ _ _)

theorem Grave.rememberTombstone (h : Grave id d u s) (hu : s.now < u) (hne : other ≠ id) (t : Tombstone)
    (hroom : s.tombstones.length + 1 ≤ maxTombstones) : Grave id d u (s.rememberTombstone other t) := by
  obtain ⟨v, hv, hconnection, hlasts⟩ := h.tombstone
  refine ⟨h.gone, v, ?_, hconnection, hlasts⟩
  exact get?_rememberTombstone s other t id (by rwa [if_neg hne]) (by omega) hroom

theorem forget_frame (C : Config) (s : State S) (id : String) (o : Observer S) (reason : ErrorBody) :
    (s.forget C id o reason).departed = s.departed ∧ (s.forget C id o reason).expired = s.expired ∧
      (s.forget C id o reason).claimed = s.claimed ∧ (s.forget C id o reason).now = s.now ∧
      (s.forget C id o reason).byId = Function.update s.byId id none ∧
      (s.forget C id o reason).byConnection =
        Function.update s.byConnection o.connection ((s.byConnection o.connection).filter (· ≠ id)) ∧
      (s.forget C id o reason).tombstones.length ≤ s.tombstones.length + 1 :=
  ⟨rfl, rfl, rfl, rfl, rfl, rfl, length_rememberTombstone _ _ _⟩

theorem Grave.dispose (h : Grave id d u s) (hu : s.now < u) (other : String) (reason : ErrorBody)
    (hroom : s.tombstones.length + 1 ≤ maxTombstones) : Grave id d u (s.dispose C other reason) := by
  unfold State.dispose
  split
  · rename_i o hother
    have hne : other ≠ id := by
      intro heq
      rw [heq, h.gone] at hother
      cases hother
    have hunlisted : Grave id d u { s with byId := Function.update s.byId other none } := by
      refine ⟨?_, h.tombstone⟩
      show Function.update s.byId other none id = none
      rw [Function.update_of_ne (Ne.symm hne)]
      exact h.gone
    obtain ⟨hgone, htombstone⟩ := hunlisted.rememberTombstone hu hne
      { connection := o.connection, reason := reason, deadline := s.now + C.observerGraceMs } hroom
    exact ⟨hgone, htombstone⟩
  · exact h

variable {o : Observer S}

/-- A disposal digs the grave on the connection that owned the observer. -/
theorem dispose_grave (hlive : s.byId id = some o) (reason : ErrorBody) (hgrace : 0 < C.observerGraceMs)
    (hroom : s.tombstones.length + 1 ≤ maxTombstones) :
    Grave id o.connection (s.now + C.observerGraceMs) (s.dispose C id reason) := by
  unfold State.dispose
  rw [hlive]
  refine ⟨Function.update_self .., ?_⟩
  refine ⟨{ connection := o.connection, reason := reason, deadline := s.now + C.observerGraceMs }, ?_, rfl, Nat.le_refl _⟩
  apply get?_rememberTombstone { s with byId := Function.update s.byId id none }
  · rw [if_pos rfl]
  · show s.now < s.now + C.observerGraceMs
    omega
  · exact hroom

theorem dispose_frame (C : Config) (s : State S) (id : String) (reason : ErrorBody) :
    (s.dispose C id reason).departed = s.departed ∧ (s.dispose C id reason).expired = s.expired ∧
      (s.dispose C id reason).claimed = s.claimed ∧ (s.dispose C id reason).now = s.now ∧
      (s.dispose C id reason).byId = Function.update s.byId id none ∧
      (s.dispose C id reason).tombstones.length ≤ s.tombstones.length + 1 := by
  unfold dispose
  split
  · obtain ⟨h₁, h₂, h₃, h₄, h₅, _, h₇⟩ := forget_frame C s id ‹_› reason
    exact ⟨h₁, h₂, h₃, h₄, h₅, h₇⟩
  · rename_i hnone
    refine ⟨rfl, rfl, rfl, rfl, ?_, Nat.le_succ _⟩
    rw [Function.update_eq_self_iff.mpr hnone.symm]

theorem disposeAway_cons (C : Config) (s : State S) (c : Conn) (first : String) (rest : List String) :
    s.disposeAway C c (first :: rest) = if (s.byId first).any (fun o => o.connection == c && !o.connected) then
      (s.dispose C first notReattached).disposeAway C c rest else s.disposeAway C c rest := rfl

/-- The end of a grace period: nothing but disposals. -/
theorem disposeAway_frame (C : Config) (s : State S) (c : Conn) (ids : List String) :
    (s.disposeAway C c ids).departed = s.departed ∧ (s.disposeAway C c ids).expired = s.expired ∧
      (s.disposeAway C c ids).claimed = s.claimed ∧ (s.disposeAway C c ids).now = s.now ∧
      (s.disposeAway C c ids).expiredHeld = s.expiredHeld := by
  induction ids generalizing s with
  | nil => exact ⟨rfl, rfl, rfl, rfl, rfl⟩
  | cons id rest ih =>
    rw [disposeAway_cons]
    split
    · obtain ⟨h₁, h₂, h₃, h₄, h₅⟩ := ih (s.dispose C id _)
      obtain ⟨h₁', h₂', h₃', h₄', _⟩ := dispose_frame C s id notReattached
      refine ⟨h₁.trans h₁', h₂.trans h₂', h₃.trans h₃', h₄.trans h₄', h₅.trans ?_⟩
      unfold dispose
      split <;> rfl
    · exact ih s

theorem Grave.disposeAway (h : Grave id d u s) (hu : s.now < u) (c : Conn) (ids : List String)
    (hroom : s.tombstones.length + ids.length ≤ maxTombstones) : Grave id d u (s.disposeAway C c ids) := by
  induction ids generalizing s with
  | nil => exact h
  | cons first rest ih =>
    rw [List.length_cons] at hroom
    rw [disposeAway_cons]
    split
    · obtain ⟨_, _, _, hnow, _, hlength⟩ := dispose_frame C s first notReattached
      apply ih (h.dispose hu first _ (by omega))
      · rw [hnow]
        exact hu
      · omega
    · exact ih h hu (by omega)

/-- What the loop leaves: an observer in the list that did not come back is disposed, the others stay. -/
theorem byId_disposeAway (C : Config) (s : State S) (c : Conn) (ids : List String) (id : String) :
    (s.disposeAway C c ids).byId id =
      if id ∈ ids ∧ (s.byId id).any (fun o => o.connection == c && !o.connected) = true then none else s.byId id := by
  induction ids generalizing s with
  | nil => simp [State.disposeAway]
  | cons first rest ih =>
    rw [disposeAway_cons]
    by_cases haway : (s.byId first).any (fun o => o.connection == c && !o.connected) = true
    · rw [if_pos haway, ih]
      obtain ⟨_, _, _, _, hbyId, _⟩ := dispose_frame C s first notReattached
      rw [hbyId]
      by_cases hid : id = first
      · subst hid
        rw [Function.update_self]
        simp [haway]
      · rw [Function.update_of_ne hid]
        simp [hid]
    · rw [if_neg haway, ih]
      by_cases hid : id = first
      · subst hid
        simp [haway]
      · simp [hid]

theorem disposeAway_grave (hlive : s.byId id = some o) (c : Conn) (ids : List String)
    (hgone : (s.disposeAway C c ids).byId id = none) (hgrace : 0 < C.observerGraceMs)
    (hroom : s.tombstones.length + ids.length ≤ maxTombstones) :
    Grave id o.connection (s.now + C.observerGraceMs) (s.disposeAway C c ids) := by
  induction ids generalizing s with
  | nil =>
    cases hlive.symm.trans hgone
  | cons first rest ih =>
    rw [List.length_cons] at hroom
    rw [disposeAway_cons] at hgone ⊢
    split at hgone
    · rename_i haway
      rw [if_pos haway]
      obtain ⟨_, _, _, hnow, hbyId, hlength⟩ := dispose_frame C s first notReattached
      by_cases hid : id = first
      · subst hid
        apply (dispose_grave hlive _ hgrace (by omega)).disposeAway
        · rw [hnow]
          omega
        · omega
      · rw [← hnow]
        apply ih _ hgone
        · omega
        · rw [hbyId, Function.update_of_ne hid]
          exact hlive
    · rename_i hstays
      rw [if_neg hstays]
      exact ih hlive hgone (by omega)

/-! ### Reachable states -/

/-- The indexes agree with the observers. -/
structure Indexed (C : Config) (s : State S) : Prop where
  index : ∀ {id o}, s.byId id = some o → id ∈ s.byConnection o.connection
  listed : ∀ {c id}, id ∈ s.byConnection c → ∃ o, s.byId id = some o ∧ o.connection = c
  formed : ∀ {id o}, s.byId id = some o → C.wellFormed id = true

/-- The observers of a connection that is gone wait for its departed record to be claimed. -/
structure Waiting (C : Config) (s : State S) : Prop where
  away : ∀ {id o}, s.byId id = some o → s.claimed o.connection = true →
    s.departed o.connection ≠ none ∧ o.connected = false
  token : ∀ {c t}, s.departed c = some t → t = C.reattachToken c ∧ s.claimed c = true
  late : ∀ {c e}, s.expired c = some e → e.token = C.reattachToken c

theorem Indexed.start : Indexed C (State.start : State S) := by
  constructor <;> simp [State.start]

theorem Waiting.start : Waiting C (State.start : State S) := by
  constructor <;> simp [State.start]

theorem Indexed.owned_eq (h : Indexed C s) (c : Conn) : s.owned c = s.byConnection c := by
  apply List.filter_eq_self.mpr
  intro id hid
  obtain ⟨o, ho, hconnection⟩ := h.listed hid
  simp [ho, hconnection]

theorem Indexed.mem_owned (h : Indexed C s) {c : Conn} {id : String} :
    id ∈ s.owned c ↔ ∃ o, s.byId id = some o ∧ o.connection = c := by
  rw [h.owned_eq]
  constructor
  · exact h.listed
  · rintro ⟨o, ho, rfl⟩
    exact h.index ho

theorem Indexed.dispose (h : Indexed C s) (id : String) (reason : ErrorBody) : Indexed C (s.dispose C id reason) := by
  unfold State.dispose
  split
  · rename_i o hlive
    obtain ⟨_, _, _, _, hbyId, hbyConnection, _⟩ := forget_frame C s id o reason
    constructor
    · intro other v hv
      rw [hbyId] at hv
      rw [hbyConnection]
      by_cases hne : other = id
      · rw [hne, Function.update_self] at hv
        cases hv
      · rw [Function.update_of_ne hne] at hv
        have hmem := h.index hv
        by_cases hc : v.connection = o.connection
        · rw [hc, Function.update_self, List.mem_filter]
          exact ⟨hc ▸ hmem, by simpa using hne⟩
        · rw [Function.update_of_ne hc]
          exact hmem
    · intro c other hmem
      rw [hbyConnection] at hmem
      rw [hbyId]
      have hkeep : other ≠ id ∧ other ∈ s.byConnection c := by
        by_cases hc : c = o.connection
        · rw [hc, Function.update_self, List.mem_filter] at hmem
          exact ⟨by simpa using hmem.2, hc ▸ hmem.1⟩
        · rw [Function.update_of_ne hc] at hmem
          refine ⟨?_, hmem⟩
          rintro rfl
          obtain ⟨v, hv, hvc⟩ := h.listed hmem
          rw [hlive] at hv
          cases hv
          exact hc hvc.symm
      rw [Function.update_of_ne hkeep.1]
      exact h.listed hkeep.2
    · intro other v hv
      rw [hbyId] at hv
      by_cases hne : other = id
      · rw [hne, Function.update_self] at hv
        cases hv
      · rw [Function.update_of_ne hne] at hv
        exact h.formed hv
  · exact h

theorem Indexed.disposeAway (h : Indexed C s) (c : Conn) (ids : List String) : Indexed C (s.disposeAway C c ids) := by
  induction ids generalizing s with
  | nil => exact h
  | cons id rest ih =>
    rw [disposeAway_cons]
    split
    · exact ih (h.dispose id _)
    · exact ih h

theorem Waiting.dispose (h : Waiting C s) (id : String) (reason : ErrorBody) : Waiting C (s.dispose C id reason) := by
  obtain ⟨hdeparted, hexpired, hclaimed, _, hbyId, _⟩ := dispose_frame C s id reason
  constructor
  · intro other o ho
    rw [hbyId] at ho
    rw [hdeparted, hclaimed]
    by_cases hne : other = id
    · rw [hne, Function.update_self] at ho
      cases ho
    · rw [Function.update_of_ne hne] at ho
      exact h.away ho
  · rw [hdeparted, hclaimed]
    exact h.token
  · rw [hexpired]
    exact h.late

theorem suspend_some {ids : List String} (h : (s.suspend ids).byId id = some o) :
    ∃ v, s.byId id = some v ∧ v.connection = o.connection ∧ (id ∈ ids → o.connected = false) ∧ (id ∉ ids → o = v) := by
  obtain ⟨v, hv, rfl⟩ := Option.map_eq_some_iff.mp h
  refine ⟨v, hv, ?_, ?_, ?_⟩
  · split <;> rfl
  · intro hid
    rw [if_pos hid]
  · intro hid
    rw [if_neg hid]

theorem Indexed.suspend (h : Indexed C s) (ids : List String) : Indexed C (s.suspend ids) := by
  constructor
  · intro id o ho
    obtain ⟨v, hv, hconnection, _⟩ := suspend_some ho
    exact hconnection ▸ h.index hv
  · intro c id hid
    obtain ⟨o, ho, hconnection⟩ := h.listed hid
    refine ⟨if id ∈ ids then { o with connected := false } else o, ?_, ?_⟩
    · show (s.byId id).map _ = _
      rw [ho]
      rfl
    · rw [← hconnection]
      split <;> rfl
  · intro id o ho
    obtain ⟨v, hv, _⟩ := suspend_some ho
    exact h.formed hv

theorem Indexed.connectionClosed (h : Indexed C s) (c : Conn) : Indexed C (s.connectionClosed C c) := by
  unfold State.connectionClosed
  split
  · exact h
  · obtain ⟨hindex, hlisted, hformed⟩ := h.suspend (s.owned c)
    exact ⟨hindex, hlisted, hformed⟩

/-- After the teardown of a connection its observers wait. `away` is known of the others. -/
theorem Waiting.connectionClosed (hindexed : Indexed C s) (hclaimed : s.claimed c = true)
    (haway : ∀ {id o}, s.byId id = some o → o.connection ≠ c → s.claimed o.connection = true →
      s.departed o.connection ≠ none ∧ o.connected = false)
    (htoken : ∀ {d t}, s.departed d = some t → t = C.reattachToken d ∧ s.claimed d = true)
    (hlate : ∀ {d e}, s.expired d = some e → e.token = C.reattachToken d) : Waiting C (s.connectionClosed C c) := by
  unfold State.connectionClosed
  split
  · rename_i hempty
    refine ⟨?_, htoken, hlate⟩
    intro id o ho
    by_cases hc : o.connection = c
    · have hmem := hindexed.mem_owned.mpr ⟨o, ho, hc⟩
      rw [List.isEmpty_iff.mp hempty] at hmem
      cases hmem
    · exact haway ho hc
  · constructor
    · intro id o ho hclosed
      obtain ⟨v, hv, hconnection, hmem, hnot⟩ := suspend_some ho
      show Function.update s.departed c _ o.connection ≠ none ∧ _
      by_cases hc : o.connection = c
      · rw [hc, Function.update_self]
        exact ⟨Option.some_ne_none _, hmem (hindexed.mem_owned.mpr ⟨v, hv, hconnection.trans hc⟩)⟩
      · rw [Function.update_of_ne hc]
        have hout : id ∉ s.owned c := by
          intro hin
          obtain ⟨w, hw, hwc⟩ := hindexed.mem_owned.mp hin
          rw [hv] at hw
          cases hw
          exact hc (hconnection.symm.trans hwc)
        obtain rfl := hnot hout
        exact haway hv hc hclosed
    · intro d t ht
      replace ht : Function.update s.departed c _ d = some t := ht
      by_cases hd : d = c
      · rw [hd, Function.update_self] at ht
        cases ht
        rw [hd]
        exact ⟨rfl, hclaimed⟩
      · rw [Function.update_of_ne hd] at ht
        exact htoken ht
    · exact hlate

theorem Indexed.close (h : Indexed C s) (c : Conn) : Indexed C (s.close C c) := by
  unfold State.close
  split
  · exact h
  · exact Indexed.connectionClosed (s := { s with claimed := Function.update s.claimed c true }) ⟨h.index, h.listed, h.formed⟩ c

theorem Waiting.close (h : Waiting C s) (hindexed : Indexed C s) (c : Conn) : Waiting C (s.close C c) := by
  unfold State.close
  split
  · exact h
  · apply Waiting.connectionClosed (s := { s with claimed := Function.update s.claimed c true })
    · exact ⟨hindexed.index, hindexed.listed, hindexed.formed⟩
    · exact Function.update_self ..
    · intro id o ho hc hclosed
      replace hclosed : Function.update s.claimed c true o.connection = true := hclosed
      rw [Function.update_of_ne hc] at hclosed
      exact h.away ho hclosed
    · intro d t ht
      obtain ⟨htoken, hclosed⟩ := h.token ht
      refine ⟨htoken, ?_⟩
      show Function.update s.claimed c true d = true
      by_cases hd : d = c
      · rw [hd, Function.update_self]
      · rw [Function.update_of_ne hd]
        exact hclosed
    · exact h.late

theorem rememberExpired_frame (C : Config) (s : State S) (c : Conn) (token : Token) (disposed : List (String × ErrorBody)) :
    (s.rememberExpired C c token disposed).byId = s.byId ∧
      (s.rememberExpired C c token disposed).byConnection = s.byConnection ∧
      (s.rememberExpired C c token disposed).departed = s.departed ∧
      (s.rememberExpired C c token disposed).tombstones = s.tombstones ∧
      (s.rememberExpired C c token disposed).claimed = s.claimed ∧
      (s.rememberExpired C c token disposed).now = s.now := by
  unfold rememberExpired
  split <;> exact ⟨rfl, rfl, rfl, rfl, rfl, rfl⟩

theorem rememberExpired_late (h : ∀ {d e}, s.expired d = some e → e.token = C.reattachToken d)
    (disposed : List (String × ErrorBody)) {d : Conn} {e : Expired}
    (hget : (s.rememberExpired C c (C.reattachToken c) disposed).expired d = some e) : e.token = C.reattachToken d := by
  unfold rememberExpired at hget
  split at hget
  · exact h hget
  · have hold := sweepExpired_of_some _ hget
    by_cases hd : d = c
    · rw [hd, Function.update_self] at hold
      cases hold
      rw [hd]
    · rw [Function.update_of_ne hd] at hold
      exact h hold

theorem Indexed.graceElapsed (h : Indexed C s) (c : Conn) : Indexed C (s.graceElapsed C c) := by
  unfold State.graceElapsed
  split
  · exact h
  · extract_lets s₁ s₂
    have hs₁ : Indexed C s₁ := ⟨h.index, h.listed, h.formed⟩
    have hs₂ : Indexed C s₂ := hs₁.disposeAway c _
    obtain ⟨hbyId, hbyConnection, _⟩ := rememberExpired_frame C s₂ c ‹_› (s₂.remembered c)
    constructor
    · rw [hbyId, hbyConnection]
      exact hs₂.index
    · rw [hbyId, hbyConnection]
      exact hs₂.listed
    · rw [hbyId]
      exact hs₂.formed

theorem Waiting.graceElapsed (h : Waiting C s) (hindexed : Indexed C s) (c : Conn) : Waiting C (s.graceElapsed C c) := by
  unfold State.graceElapsed
  split
  · exact h
  · rename_i token hdeparted
    obtain ⟨rfl, hclosed⟩ := h.token hdeparted
    extract_lets s₁ s₂
    obtain ⟨hdeparted₂, hexpired₂, hclaimed₂, _, _⟩ := disposeAway_frame C s₁ c (s₁.byConnection c)
    obtain ⟨hbyId, _, hdep, _, hcl, _⟩ := rememberExpired_frame C s₂ c (C.reattachToken c) (s₂.remembered c)
    constructor
    · intro id o ho
      rw [hbyId] at ho
      rw [hdep, hcl, show s₂.departed = s₁.departed from hdeparted₂, show s₂.claimed = s₁.claimed from hclaimed₂]
      have hlive := byId_disposeAway C s₁ c (s₁.byConnection c) id
      rw [show (s₁.disposeAway C c (s₁.byConnection c)).byId id = some o from ho] at hlive
      split at hlive
      · cases hlive
      · rename_i hstays
        have hlive : s.byId id = some o := hlive.symm
        intro hclosed'
        obtain ⟨hwaits, haway⟩ := h.away hlive hclosed'
        -- one of `c` would have been disposed
        have hc : o.connection ≠ c := by
          intro hc
          apply hstays
          refine ⟨hc ▸ hindexed.index hlive, ?_⟩
          show (s.byId id).any _ = true
          rw [hlive]
          simp [hc, haway]
        refine ⟨?_, haway⟩
        show Function.update s.departed c none o.connection ≠ none
        rw [Function.update_of_ne hc]
        exact hwaits
    · intro d t ht
      rw [hdep, show s₂.departed = s₁.departed from hdeparted₂] at ht
      rw [hcl, show s₂.claimed = s₁.claimed from hclaimed₂]
      replace ht : Function.update s.departed c none d = some t := ht
      by_cases hd : d = c
      · rw [hd, Function.update_self] at ht
        cases ht
      · rw [Function.update_of_ne hd] at ht
        exact h.token ht
    · intro d e he
      apply rememberExpired_late _ _ he
      intro d e he
      rw [show s₂.expired = s₁.expired from hexpired₂] at he
      exact h.late he

theorem move_some {p : Conn} (h : (s.move p c).byId id = some o) :
    ∃ v, s.byId id = some v ∧ (id ∈ s.owned p → o = { v with connection := c, connected := true }) ∧
      (id ∉ s.owned p → o = v) := by
  obtain ⟨v, hv, rfl⟩ := Option.map_eq_some_iff.mp h
  refine ⟨v, hv, ?_, ?_⟩
  · intro hid
    rw [if_pos hid]
  · intro hid
    rw [if_neg hid]

theorem Indexed.move (h : Indexed C s) {p : Conn} (hne : p ≠ c) : Indexed C (s.move p c) := by
  have hto : (s.move p c).byConnection c =
      s.byConnection c ++ (s.owned p).filter (· ∉ s.byConnection c) := Function.update_self ..
  have hfrom : (s.move p c).byConnection p = [] := by
    show Function.update (Function.update s.byConnection p []) c _ p = []
    rw [Function.update_of_ne hne, Function.update_self]
  have helse : ∀ {d}, d ≠ c → d ≠ p → (s.move p c).byConnection d = s.byConnection d := by
    intro d hc hp
    show Function.update (Function.update s.byConnection p []) c _ d = _
    rw [Function.update_of_ne hc, Function.update_of_ne hp]
  constructor
  · intro id o ho
    obtain ⟨v, hv, hin, hout⟩ := move_some ho
    by_cases hid : id ∈ s.owned p
    · rw [hin hid, hto, List.mem_append, List.mem_filter]
      by_cases hmem : id ∈ s.byConnection c
      · exact .inl hmem
      · exact .inr ⟨hid, by simpa using hmem⟩
    · obtain rfl := hout hid
      have hp : o.connection ≠ p := fun hp => hid (h.mem_owned.mpr ⟨o, hv, hp⟩)
      by_cases hc : o.connection = c
      · rw [hc, hto]
        exact List.mem_append_left _ (hc ▸ h.index hv)
      · rw [helse hc hp]
        exact h.index hv
  · intro d id hid
    have hfind : ∀ {v}, s.byId id = some v → (s.move p c).byId id =
        some (if id ∈ s.owned p then { v with connection := c, connected := true } else v) := by
      intro v hv
      show (s.byId id).map _ = _
      rw [hv]
      rfl
    by_cases hc : d = c
    · subst hc
      rw [hto] at hid
      rcases List.mem_append.mp hid with hid | hid
      · obtain ⟨v, hv, hvc⟩ := h.listed hid
        refine ⟨_, hfind hv, ?_⟩
        split
        · rfl
        · exact hvc
      · have hid := (List.mem_filter.mp hid).1
        obtain ⟨v, hv, _⟩ := h.mem_owned.mp hid
        refine ⟨_, hfind hv, ?_⟩
        rw [if_pos hid]
    · have hp : d ≠ p := by
        rintro rfl
        rw [hfrom] at hid
        cases hid
      rw [helse hc hp] at hid
      obtain ⟨v, hv, hvc⟩ := h.listed hid
      refine ⟨_, hfind hv, ?_⟩
      have hout : id ∉ s.owned p := by
        intro hin
        obtain ⟨w, hw, hwp⟩ := h.mem_owned.mp hin
        rw [hv] at hw
        cases hw
        exact hp (hvc.symm.trans hwp)
      rw [if_neg hout]
      exact hvc
  · intro id o ho
    obtain ⟨v, hv, _⟩ := move_some ho
    exact h.formed hv

theorem Waiting.move (h : Waiting C s) (hindexed : Indexed C s) {p : Conn} (hopen : s.claimed c = false) :
    Waiting C (s.move p c) := by
  constructor
  · intro id o ho hclosed
    replace hclosed : s.claimed o.connection = true := hclosed
    obtain ⟨v, hv, hin, hout⟩ := move_some ho
    by_cases hid : id ∈ s.owned p
    · -- the connection that reattached is there
      rw [hin hid] at hclosed
      exact absurd (hopen.symm.trans hclosed) (by decide)
    · obtain rfl := hout hid
      have hp : o.connection ≠ p := fun hp => hid (hindexed.mem_owned.mpr ⟨o, hv, hp⟩)
      obtain ⟨hwaits, haway⟩ := h.away hv hclosed
      refine ⟨?_, haway⟩
      show Function.update s.departed p none o.connection ≠ none
      rw [Function.update_of_ne hp]
      exact hwaits
  · intro d t ht
    replace ht : Function.update s.departed p none d = some t := ht
    by_cases hd : d = p
    · rw [hd, Function.update_self] at ht
      cases ht
    · rw [Function.update_of_ne hd] at ht
      exact h.token ht
  · exact h.late

/-- Tombstones for the observers of a late reattach. -/
theorem foldl_rememberTombstone_frame (C : Config) (s : State S) (c : Conn) (l : List (String × ErrorBody)) :
    let s' := l.foldl (fun s m => s.rememberTombstone m.1
      { connection := c, reason := m.2, deadline := s.now + C.observerGraceMs }) s
    s'.byId = s.byId ∧ s'.byConnection = s.byConnection ∧ s'.departed = s.departed ∧ s'.expired = s.expired ∧
      s'.claimed = s.claimed ∧ s'.now = s.now := by
  induction l generalizing s with
  | nil => exact ⟨rfl, rfl, rfl, rfl, rfl, rfl⟩
  | cons m rest ih => exact ih _

theorem reattachLate_frame (C : Config) (s : State S) (p : Conn) (token : Token) (c : Conn) :
    (s.reattachLate C p token c).byId = s.byId ∧ (s.reattachLate C p token c).byConnection = s.byConnection ∧
      (s.reattachLate C p token c).departed = s.departed ∧ (s.reattachLate C p token c).claimed = s.claimed ∧
      (s.reattachLate C p token c).now = s.now ∧
      ∀ d e, (s.reattachLate C p token c).expired d = some e → s.expired d = some e := by
  unfold reattachLate
  split
  · exact ⟨rfl, rfl, rfl, rfl, rfl, fun _ _ h => h⟩
  · rename_i expired _
    split
    · obtain ⟨h₁, h₂, h₃, h₄, h₅, h₆⟩ := foldl_rememberTombstone_frame C
        { s with expired := Function.update s.expired p none } c expired.disposed
      refine ⟨h₁, h₂, h₃, h₅, h₆, ?_⟩
      intro d e he
      rw [h₄] at he
      replace he : Function.update s.expired p none d = some e := he
      by_cases hd : d = p
      · rw [hd, Function.update_self] at he
        cases he
      · rwa [Function.update_of_ne hd] at he
    · exact ⟨rfl, rfl, rfl, rfl, rfl, fun _ _ h => h⟩

theorem Indexed.onReattach (h : Indexed C s) (p : Conn) (token : Option Token) (c : Conn) :
    Indexed C (s.onReattach C p token c) := by
  unfold State.onReattach
  split
  · exact h
  · rename_i hne
    split
    · exact h
    · split
      · exact h
      · rename_i token _
        have hclosed := h.close p
        unfold State.reattach
        split
        · exact hclosed.move hne
        · obtain ⟨hbyId, hbyConnection, _⟩ := reattachLate_frame C (s.close C p) p token c
          constructor
          · rw [hbyId, hbyConnection]
            exact hclosed.index
          · rw [hbyId, hbyConnection]
            exact hclosed.listed
          · rw [hbyId]
            exact hclosed.formed

theorem claimed_close (C : Config) (s : State S) (p : Conn) :
    (s.close C p).claimed = Function.update s.claimed p true := by
  unfold close
  split
  · rename_i hclaimed
    rw [Function.update_eq_self_iff.mpr hclaimed.symm]
  · unfold connectionClosed
    split <;> rfl

theorem Waiting.onReattach (h : Waiting C s) (hindexed : Indexed C s) (p : Conn) (token : Option Token) (c : Conn)
    (hopen : p ≠ c → token = some (C.reattachToken p) → s.claimed c = false) : Waiting C (s.onReattach C p token c) := by
  unfold State.onReattach
  split
  · exact h
  · rename_i hne
    split
    · exact h
    · split
      · exact h
      · rename_i token _
        have hclosed := h.close hindexed p
        unfold State.reattach
        split
        · rename_i hdeparted
          obtain ⟨rfl, _⟩ := hclosed.token hdeparted
          apply hclosed.move (hindexed.close p)
          rw [claimed_close, Function.update_of_ne (Ne.symm hne)]
          exact hopen hne rfl
        · obtain ⟨hbyId, _, hdeparted, hclaimed, _, hexpired⟩ := reattachLate_frame C (s.close C p) p token c
          constructor
          · rw [hbyId, hdeparted, hclaimed]
            exact hclosed.away
          · rw [hdeparted, hclaimed]
            exact hclosed.token
          · intro d e he
            exact hclosed.late (hexpired d e he)

theorem Indexed.publish (h : Indexed C s) (c : Conn) (id : String) (spec : S) (hfree : s.byId id = none)
    (hformed : C.wellFormed id = true) : Indexed C (s.publish c id spec) := by
  have hout : ∀ d, id ∉ s.byConnection d := by
    intro d hmem
    obtain ⟨o, ho, _⟩ := h.listed hmem
    rw [hfree] at ho
    cases ho
  constructor
  · intro other o ho
    replace ho : Function.update s.byId id _ other = some o := ho
    show other ∈ Function.update s.byConnection c _ o.connection
    rw [if_neg (hout c)]
    by_cases hid : other = id
    · rw [hid, Function.update_self] at ho
      cases ho
      rw [Function.update_self, hid]
      exact List.mem_append_right _ (List.mem_singleton_self _)
    · rw [Function.update_of_ne hid] at ho
      have hmem := h.index ho
      by_cases hc : o.connection = c
      · rw [hc, Function.update_self]
        exact List.mem_append_left _ (hc ▸ hmem)
      · rw [Function.update_of_ne hc]
        exact hmem
  · intro d other hmem
    replace hmem : other ∈ Function.update s.byConnection c _ d := hmem
    rw [if_neg (hout c)] at hmem
    show ∃ o, Function.update s.byId id _ other = some o ∧ _
    by_cases hid : other = id
    · rw [hid] at hmem ⊢
      rw [Function.update_self]
      by_cases hd : d = c
      · exact ⟨_, rfl, hd.symm⟩
      · rw [Function.update_of_ne hd] at hmem
        exact absurd hmem (hout d)
    · rw [Function.update_of_ne hid]
      by_cases hd : d = c
      · rw [hd, Function.update_self] at hmem
        rw [hd]
        rcases List.mem_append.mp hmem with hmem | hmem
        · exact h.listed hmem
        · exact absurd (List.mem_singleton.mp hmem) hid
      · rw [Function.update_of_ne hd] at hmem
        exact h.listed hmem
  · intro other o ho
    replace ho : Function.update s.byId id _ other = some o := ho
    by_cases hid : other = id
    · rw [hid]
      exact hformed
    · rw [Function.update_of_ne hid] at ho
      exact h.formed ho

theorem Indexed.create (h : Indexed C s) (c : Conn) (id : String) (spec : S) (hfree : s.byId id = none)
    (hformed : C.wellFormed id = true) : Indexed C (s.create C c id spec) := by
  have hpublished := h.publish c id spec hfree hformed
  unfold State.create
  split
  · exact hpublished.connectionClosed c
  · exact hpublished

theorem Waiting.create (h : Waiting C s) (hindexed : Indexed C s) (c : Conn) (id : String) (spec : S)
    (hfree : s.byId id = none) (hformed : C.wellFormed id = true) : Waiting C (s.create C c id spec) := by
  have hothers : ∀ {other o}, (s.publish c id spec).byId other = some o → o.connection ≠ c →
      s.claimed o.connection = true → s.departed o.connection ≠ none ∧ o.connected = false := by
    intro other o ho hc
    replace ho : Function.update s.byId id _ other = some o := ho
    by_cases hid : other = id
    · rw [hid, Function.update_self] at ho
      cases ho
      exact absurd rfl hc
    · rw [Function.update_of_ne hid] at ho
      exact h.away ho
  unfold State.create
  split
  · rename_i hclosed
    exact Waiting.connectionClosed (hindexed.publish c id spec hfree hformed) hclosed hothers h.token h.late
  · rename_i hopen
    refine ⟨?_, h.token, h.late⟩
    intro other o ho hclosed
    apply hothers ho _ hclosed
    rintro rfl
    exact hopen hclosed

end State

end Iii.Observers
