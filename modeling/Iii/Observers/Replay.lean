import Iii.Observers.Tombstone

/-! The replay of a disposed observer, after any number of reconnects of its worker.

What was disposed is remembered for the connection that owned it, and follows the worker through
`Reattach`. That needs the record of a departed connection, which only a connection that owns an
observer leaves. -/
namespace Iii.Observers
open Lib

variable {S : Type} {s s' : State S} {C : Config} {id : String} {c d p : Conn} {u : Nat}

namespace State

/-- A teardown of `connection` leaves a record, or has nothing to remember. -/
def leaves (s : State S) (connection : Conn) : Bool :=
  s.claimed connection || !(s.owned connection).isEmpty || (s.remembered connection).isEmpty

/-- No disposed observer named in the list is remembered for another connection than `connection`. -/
def undisputed (s : State S) (connection : Conn) (ids : List String) : Bool :=
  ids.all fun id => (Assoc.get? s.tombstones id).all fun t => t.connection = connection || t.deadline ≤ s.now

/-- The tombstones a step makes. -/
def added (s : State S) : Act S → Nat
  | .dispose .. | .unobserve .. => 1
  | .graceElapsed connection => (s.byConnection connection).length
  | .reattach previous .. => (s.expired previous).elim 0 (·.disposed.length)
  | _ => 0

/-- There are not too many tombstones and expired records. -/
def room (s : State S) (a : Act S) : Bool :=
  s.tombstones.length + s.added a ≤ maxTombstones &&
    match a with
    | .graceElapsed connection =>
      s.expiredHeld + (s.remembered connection).length + (s.byConnection connection).length ≤ maxExpiredObservers
    | _ => true

/-- A teardown leaves a record when there is something to remember, only the worker that had it
replays an id, and a connection that reattaches is not torn down itself. -/
def careful (C : Config) (s : State S) (a : Act S) : Bool :=
  s.room a &&
    match a with
    | .observe connection id _ _ => s.undisputed connection [id]
    | .close connection => s.leaves connection
    | .reattach previous token connection =>
      previous = connection || token != some (C.reattachToken previous) ||
        (!s.claimed connection && s.leaves previous &&
          (s.expired previous).all fun e => s.undisputed previous (e.disposed.map (·.1)))
    | _ => true

theorem room_le {a : Act S} (h : s.room a = true) : s.tombstones.length + s.added a ≤ maxTombstones :=
  of_decide_eq_true (Bool.and_eq_true_iff.mp h).1

theorem careful_reattach (hpc : p ≠ c) (h : s.careful C (.reattach p (some (C.reattachToken p)) c) = true) :
    s.room (.reattach p (some (C.reattachToken p)) c) = true ∧ s.claimed c = false ∧ s.leaves p = true ∧
      ∀ e, s.expired p = some e → s.undisputed p (e.disposed.map (·.1)) = true := by
  simpa [careful, hpc, and_assoc, Option.all_eq_true] using h

/-! ### What is kept -/

/-- `id` is disposed and remembered for `d`; when `d` is gone, the way to the next connection is open. -/
structure Kept (C : Config) (id : String) (d : Conn) (u : Nat) (s : State S) : Prop extends Grave id d u s where
  soon : u ≤ s.now + C.observerGraceMs
  way : s.claimed d = true → s.departed d ≠ none ∨
    ∃ e, s.expired d = some e ∧ u ≤ e.deadline ∧ id ∈ e.disposed.map (·.1)

theorem Grave.mem_remembered (h : Grave id d u s) (hu : s.now < u) : ∃ reason, (id, reason) ∈ s.remembered d := by
  obtain ⟨t, ht, hconnection, hlasts⟩ := h.tombstone
  refine ⟨t.reason, List.mem_map.mpr ⟨(id, t), ?_, rfl⟩⟩
  rw [List.mem_filter]
  have hdeadline : s.now < t.deadline := by omega
  exact ⟨Assoc.mem_of_get? ht, by simp [hconnection, hdeadline]⟩

theorem Grave.connection_eq (h : Grave id d u s) (hu : s.now < u) {ids : List String} (hids : s.undisputed c ids = true)
    (hid : id ∈ ids) : d = c := by
  obtain ⟨t, ht, hconnection, hlasts⟩ := h.tombstone
  have hcheck := List.all_eq_true.mp hids id hid
  rw [ht] at hcheck
  have hcheck : t.connection = c ∨ t.deadline ≤ s.now := by simpa using hcheck
  rcases hcheck with hcheck | hcheck
  · exact hconnection.symm.trans hcheck
  · omega

theorem Kept.dispose (h : Kept C id d u s) (hu : s.now < u) (other : String) (reason : ErrorBody)
    (hroom : s.tombstones.length + 1 ≤ maxTombstones) : Kept C id d u (s.dispose C other reason) := by
  obtain ⟨hdeparted, hexpired, hclaimed, hnow, _⟩ := dispose_frame C s other reason
  refine ⟨h.toGrave.dispose hu other reason hroom, ?_, ?_⟩
  · rw [hnow]
    exact h.soon
  · rw [hdeparted, hexpired, hclaimed]
    exact h.way

theorem Kept.connectionClosed (h : Kept C id d u s) (c : Conn) : Kept C id d u (s.connectionClosed C c) := by
  unfold State.connectionClosed
  split
  · exact h
  · refine ⟨⟨?_, h.tombstone⟩, h.soon, ?_⟩
    · show (s.byId id).map _ = none
      rw [h.gone]
      rfl
    · intro hclosed
      show Function.update s.departed c _ d ≠ none ∨ _
      by_cases hd : d = c
      · rw [hd, Function.update_self]
        exact .inl (Option.some_ne_none _)
      · rw [Function.update_of_ne hd]
        exact h.way hclosed

theorem Kept.close (h : Kept C id d u s) (hu : s.now < u) (hleaves : s.leaves c = true) :
    Kept C id d u (s.close C c) := by
  unfold State.close
  split
  · exact h
  · rename_i hopen
    by_cases hd : d = c
    · -- the connection itself: its teardown leaves a record
      subst hd
      have howned : (s.owned d).isEmpty = false := by
        have hremembered : (s.remembered d).isEmpty = false := by
          obtain ⟨reason, hmem⟩ := h.toGrave.mem_remembered hu
          rw [List.isEmpty_eq_false_iff]
          exact List.ne_nil_of_mem hmem
        simpa [leaves, hopen, hremembered] using hleaves
      unfold State.connectionClosed
      rw [if_neg (by rw [Bool.not_eq_true]; exact howned)]
      refine ⟨⟨?_, h.tombstone⟩, h.soon, fun _ => .inl ?_⟩
      · show (s.byId id).map _ = none
        rw [h.gone]
        rfl
      · show Function.update s.departed d _ d ≠ none
        rw [Function.update_self]
        exact Option.some_ne_none _
    · apply Kept.connectionClosed (s := { s with claimed := Function.update s.claimed c true })
      refine ⟨⟨h.gone, h.tombstone⟩, h.soon, ?_⟩
      intro hclosed
      replace hclosed : Function.update s.claimed c true d = true := hclosed
      rw [Function.update_of_ne hd] at hclosed
      exact h.way hclosed

/-! ### The end of a grace period -/

theorem length_filter_insert_le (P : String × Tombstone → Bool) (l : List (String × Tombstone)) (id : String)
    (t : Tombstone) : ((Assoc.insert l id t).filter P).length ≤ (l.filter P).length + 1 := by
  induction l with
  | nil => exact Nat.le_trans (List.length_filter_le _ _) (Nat.le_refl _)
  | cons m rest ih =>
    rw [Assoc.insert]
    split
    · rw [List.filter_cons, List.filter_cons]
      grind -ring -linarith
    · rw [List.filter_cons, List.filter_cons]
      split
      · rw [List.length_cons, List.length_cons]
        omega
      · exact ih

theorem length_remembered_dispose (C : Config) (s : State S) (id : String) (reason : ErrorBody) (c : Conn) :
    ((s.dispose C id reason).remembered c).length ≤ (s.remembered c).length + 1 := by
  unfold State.dispose
  split
  · rename_i o _
    unfold remembered
    rw [List.length_map, List.length_map]
    have hswept := ((sweepTombstones_sublist s.now (Assoc.insert s.tombstones id
      { connection := o.connection, reason := reason, deadline := s.now + C.observerGraceMs })
        (s.tombstoneOrder ++ [(s.now + C.observerGraceMs, id)])).filter
          fun m => m.2.connection = c ∧ s.now < m.2.deadline).length_le
    exact Nat.le_trans hswept (length_filter_insert_le _ _ _ _)
  · exact Nat.le_succ _

theorem length_remembered_disposeAway (C : Config) (s : State S) (c : Conn) (ids : List String) :
    ((s.disposeAway C c ids).remembered c).length ≤ (s.remembered c).length + ids.length := by
  induction ids generalizing s with
  | nil => exact Nat.le_refl _
  | cons id rest ih =>
    rw [disposeAway, List.length_cons]
    split
    · have hrest := ih (s.dispose C id notReattached)
      have hfirst := length_remembered_dispose C s id notReattached c
      omega
    · have hrest := ih s
      omega

/-- A record that lasts is not swept. -/
theorem rememberExpired_keeps (C : Config) (token : Token) (disposed : List (String × ErrorBody)) {e : Expired}
    (hget : s.expired d = some e) (hd : d ≠ c) (hlasts : s.now < e.deadline)
    (hroom : s.expiredHeld + disposed.length ≤ maxExpiredObservers) :
    (s.rememberExpired C c token disposed).expired d = some e := by
  unfold rememberExpired
  split
  · exact hget
  · apply sweepExpired_keeps
    · rw [Function.update_of_ne hd]
      exact hget
    · exact hlasts
    · exact hroom

theorem rememberExpired_new (C : Config) (s : State S) (c : Conn) (token : Token) (disposed : List (String × ErrorBody))
    (hne : disposed ≠ []) (hretention : 0 < C.disposedRetentionMs)
    (hroom : s.expiredHeld + disposed.length ≤ maxExpiredObservers) :
    (s.rememberExpired C c token disposed).expired c =
      some { token := token, disposed := disposed, deadline := s.now + C.disposedRetentionMs } := by
  unfold rememberExpired
  have hkeep : (disposed.isEmpty || C.disposedRetentionMs == 0) = false := by
    rw [List.isEmpty_eq_false_iff.mpr hne, Bool.false_or, beq_eq_false_iff_ne]
    omega
  rw [if_neg (by rw [Bool.not_eq_true]; exact hkeep)]
  apply sweepExpired_keeps
  · rw [Function.update_self]
  · show s.now < s.now + C.disposedRetentionMs
    omega
  · exact hroom

/-- Once the observers that stayed away are disposed, all of the connection's are on record. -/
theorem Grave.expire (h : Grave id c u s) (hu : s.now < u) (hsoon : u ≤ s.now + C.observerGraceMs)
    (hretention : C.observerGraceMs ≤ C.disposedRetentionMs) (token : Token)
    (hroom : s.expiredHeld + (s.remembered c).length ≤ maxExpiredObservers) :
    ∃ e, (s.rememberExpired C c token (s.remembered c)).expired c = some e ∧ u ≤ e.deadline ∧
      id ∈ e.disposed.map (·.1) := by
  obtain ⟨reason, hmem⟩ := h.mem_remembered hu
  have hrecord := rememberExpired_new C s c token (s.remembered c) (List.ne_nil_of_mem hmem) (by omega) hroom
  refine ⟨_, hrecord, ?_, ?_⟩
  · show u ≤ s.now + C.disposedRetentionMs
    omega
  · exact List.mem_map.mpr ⟨_, hmem, rfl⟩

theorem Grave.rememberExpired (h : Grave id d u s) (c : Conn) (token : Token) (disposed : List (String × ErrorBody)) :
    Grave id d u (s.rememberExpired C c token disposed) := by
  obtain ⟨hbyId, _, _, htombstones, _⟩ := rememberExpired_frame C s c token disposed
  constructor
  · rw [hbyId]
    exact h.gone
  · rw [htombstones]
    exact h.tombstone

/-- The registry once the observers that stayed away are disposed. -/
def afterGrace (C : Config) (s : State S) (c : Conn) : State S :=
  { s with departed := Function.update s.departed c none }.disposeAway C c (s.byConnection c)

theorem graceElapsed_eq {token : Token} (h : s.departed c = some token) :
    s.graceElapsed C c = (s.afterGrace C c).rememberExpired C c token ((s.afterGrace C c).remembered c) := by
  unfold State.graceElapsed
  rw [h]
  rfl

theorem afterGrace_frame (C : Config) (s : State S) (c : Conn) :
    (s.afterGrace C c).departed = Function.update s.departed c none ∧ (s.afterGrace C c).expired = s.expired ∧
      (s.afterGrace C c).claimed = s.claimed ∧ (s.afterGrace C c).now = s.now ∧
      (s.afterGrace C c).expiredHeld + ((s.afterGrace C c).remembered c).length ≤
        s.expiredHeld + (s.remembered c).length + (s.byConnection c).length := by
  obtain ⟨hdeparted, hexpired, hclaimed, hnow, hheld⟩ :=
    disposeAway_frame C { s with departed := Function.update s.departed c none } c (s.byConnection c)
  have hcount := length_remembered_disposeAway C { s with departed := Function.update s.departed c none } c
    (s.byConnection c)
  refine ⟨hdeparted, hexpired, hclaimed, hnow, ?_⟩
  rw [Nat.add_assoc]
  exact Nat.add_le_add (Nat.le_of_eq hheld) hcount

theorem Kept.of_grace {token : Token} (hdeparted : s.departed c = some token) (hgrave : Grave id c u (s.afterGrace C c))
    (hu : s.now < u) (hsoon : u ≤ s.now + C.observerGraceMs) (hretention : C.observerGraceMs ≤ C.disposedRetentionMs)
    (hheld : s.expiredHeld + (s.remembered c).length + (s.byConnection c).length ≤ maxExpiredObservers) :
    Kept C id c u (s.graceElapsed C c) := by
  obtain ⟨_, _, _, hnow, hcount⟩ := afterGrace_frame C s c
  rw [graceElapsed_eq hdeparted]
  obtain ⟨_, _, _, _, _, hnow'⟩ := rememberExpired_frame C (s.afterGrace C c) c token ((s.afterGrace C c).remembered c)
  refine ⟨hgrave.rememberExpired c token _, ?_, fun _ => .inr ?_⟩
  · rw [hnow', hnow]
    exact hsoon
  · apply hgrave.expire _ _ hretention token
    · exact Nat.le_trans hcount hheld
    · rw [hnow]
      exact hu
    · rw [hnow]
      exact hsoon

theorem Kept.graceElapsed (h : Kept C id d u s) (hu : s.now < u) (c : Conn)
    (hretention : C.observerGraceMs ≤ C.disposedRetentionMs)
    (hroom : s.tombstones.length + (s.byConnection c).length ≤ maxTombstones)
    (hheld : s.expiredHeld + (s.remembered c).length + (s.byConnection c).length ≤ maxExpiredObservers) :
    Kept C id d u (s.graceElapsed C c) := by
  cases hdeparted : s.departed c with
  | none =>
    unfold State.graceElapsed
    rw [hdeparted]
    exact h
  | some token =>
    have hgrave : Grave id d u (s.afterGrace C c) := by
      apply Grave.disposeAway (s := { s with departed := Function.update s.departed c none })
      · exact ⟨h.gone, h.tombstone⟩
      · exact hu
      · exact hroom
    by_cases hd : d = c
    · subst hd
      exact Kept.of_grace hdeparted hgrave hu h.soon hretention hheld
    · obtain ⟨hdep, hexp, hclaimed, hnow, hcount⟩ := afterGrace_frame C s c
      rw [graceElapsed_eq hdeparted]
      obtain ⟨_, _, hdep', _, hclaimed', hnow'⟩ :=
        rememberExpired_frame C (s.afterGrace C c) c token ((s.afterGrace C c).remembered c)
      refine ⟨hgrave.rememberExpired c token _, ?_, ?_⟩
      · rw [hnow', hnow]
        exact h.soon
      · rw [hclaimed', hclaimed, hdep', hdep, Function.update_of_ne hd]
        intro hclosed
        rcases h.way hclosed with hwaits | ⟨e, he, hlasts, hmem⟩
        · exact .inl hwaits
        · refine .inr ⟨e, ?_, hlasts, hmem⟩
          apply rememberExpired_keeps
          · rw [hexp]
            exact he
          · exact hd
          · rw [hnow]
            omega
          · exact Nat.le_trans hcount hheld

/-! ### Reattach -/

theorem Grave.foldl_rememberTombstone (h : Grave id d u s) (hu : s.now < u) (c : Conn) (l : List (String × ErrorBody))
    (hout : id ∉ l.map (·.1)) (hroom : s.tombstones.length + l.length ≤ maxTombstones) :
    Grave id d u (l.foldl (fun s m => s.rememberTombstone m.1
      { connection := c, reason := m.2, deadline := s.now + C.observerGraceMs }) s) := by
  induction l generalizing s with
  | nil => exact h
  | cons m rest ih =>
    rw [List.length_cons] at hroom
    rw [List.map_cons, List.mem_cons, not_or] at hout
    rw [List.foldl_cons]
    have hlength := length_rememberTombstone s m.1
      { connection := c, reason := m.2, deadline := s.now + C.observerGraceMs }
    apply ih
    · exact h.rememberTombstone hu (Ne.symm hout.1) _ (by omega)
    · exact hu
    · exact hout.2
    · omega

/-- A late reattach: the tombstones are made again, on the connection that reattached. -/
theorem foldl_rememberTombstone_grave (C : Config) (hgone : s.byId id = none) (hu : s.now < u)
    (hsoon : u ≤ s.now + C.observerGraceMs) (c : Conn) (l : List (String × ErrorBody)) (hin : id ∈ l.map (·.1))
    (hroom : s.tombstones.length + l.length ≤ maxTombstones) :
    Grave id c u (l.foldl (fun s m => s.rememberTombstone m.1
      { connection := c, reason := m.2, deadline := s.now + C.observerGraceMs }) s) := by
  induction l generalizing s with
  | nil => cases hin
  | cons m rest ih =>
    rw [List.length_cons] at hroom
    rw [List.foldl_cons]
    have hlength := length_rememberTombstone s m.1
      { connection := c, reason := m.2, deadline := s.now + C.observerGraceMs }
    by_cases hrest : id ∈ rest.map (·.1)
    · exact ih hgone hu hsoon hrest (by omega)
    · obtain rfl : id = m.1 := by simpa [hrest] using hin
      apply Grave.foldl_rememberTombstone
      · refine ⟨hgone, _, get?_rememberTombstone s m.1 _ m.1 (if_pos rfl) ?_ (by omega), rfl, hsoon⟩
        show s.now < s.now + C.observerGraceMs
        omega
      · exact hu
      · exact hrest
      · omega

theorem Kept.move (h : Kept C id d u s) (hopen : s.claimed c = false) :
    Kept C id (if p = d then c else d) u (s.move p c) := by
  obtain ⟨t, ht, hconnection, hlasts⟩ := h.tombstone
  refine ⟨⟨?_, ?_⟩, h.soon, ?_⟩
  · show (s.byId id).map _ = none
    rw [h.gone]
    rfl
  · refine ⟨if t.connection = p then { t with connection := c } else t, ?_, ?_, ?_⟩
    · show Assoc.get? (s.tombstones.map fun m => (m.1, _)) id = _
      rw [Assoc.get?_map (fun t : Tombstone => if t.connection = p then { t with connection := c } else t), ht]
      rfl
    · rw [hconnection]
      by_cases hp : p = d
      · rw [if_pos hp.symm, if_pos hp]
      · rw [if_neg (Ne.symm hp), if_neg hp]
        exact hconnection
    · split <;> exact hlasts
  · intro hclosed
    replace hclosed : s.claimed (if p = d then c else d) = true := hclosed
    by_cases hp : p = d
    · rw [if_pos hp, hopen] at hclosed
      cases hclosed
    · rw [if_neg hp] at hclosed ⊢
      rcases h.way hclosed with hdeparted | hexpired
      · left
        show Function.update s.departed p none d ≠ none
        rw [Function.update_of_ne (Ne.symm hp)]
        exact hdeparted
      · exact .inr hexpired

theorem Kept.reattachLate (h : Kept C id d u s) (hu : s.now < u) (hwaiting : Waiting C s)
    (hdeparted : s.departed p = none) (hclosed : s.claimed p = true) (hopen : s.claimed c = false)
    (hundisputed : ∀ e, s.expired p = some e → s.undisputed p (e.disposed.map (·.1)) = true)
    (hroom : s.tombstones.length + (s.expired p).elim 0 (·.disposed.length) ≤ maxTombstones) :
    Kept C id (if p = d then c else d) u (s.reattachLate C p (C.reattachToken p) c) := by
  by_cases hp : p = d
  · -- the record of the connection itself is there, and lists the observer
    subst hp
    rw [if_pos rfl]
    obtain ⟨e, he, hlasts, hmem⟩ := (h.way hclosed).resolve_left (absurd hdeparted)
    have htoken := hwaiting.late he
    have hfresh : (s.now < e.deadline && e.token == C.reattachToken p) = true := by
      rw [htoken]
      simp
      omega
    unfold State.reattachLate
    rw [he]
    simp only
    rw [if_pos hfresh]
    rw [he] at hroom
    have hgrave := foldl_rememberTombstone_grave C (s := { s with expired := Function.update s.expired p none }) h.gone
      hu h.soon c e.disposed hmem hroom
    obtain ⟨_, _, _, _, hclaimed, hnow⟩ := foldl_rememberTombstone_frame C
      { s with expired := Function.update s.expired p none } c e.disposed
    refine ⟨hgrave, ?_, ?_⟩
    · rw [hnow]
      exact h.soon
    · intro hclosed
      rw [hclaimed] at hclosed
      exact absurd (hopen.symm.trans hclosed) (by decide)
  · rw [if_neg hp]
    unfold State.reattachLate
    split
    · exact h
    · rename_i e he
      split
      · have hout : id ∉ e.disposed.map (·.1) := fun hin =>
          hp (h.toGrave.connection_eq hu (hundisputed e he) hin).symm
        rw [he] at hroom
        have hs : Grave id d u { s with expired := Function.update s.expired p none } := ⟨h.gone, h.tombstone⟩
        have hgrave := hs.foldl_rememberTombstone (C := C) hu c e.disposed hout hroom
        obtain ⟨_, _, hdep, hexp, hclaimed, hnow⟩ := foldl_rememberTombstone_frame C
          { s with expired := Function.update s.expired p none } c e.disposed
        refine ⟨hgrave, ?_, ?_⟩
        · rw [hnow]
          exact h.soon
        · rw [hdep, hexp, hclaimed]
          intro hclosed
          show s.departed d ≠ none ∨ ∃ e, Function.update s.expired p none d = some e ∧ _
          rw [Function.update_of_ne (Ne.symm hp)]
          exact h.way hclosed
      · exact h

/-- The connection of the worker after a step, when it was `d`. -/
def seat (C : Config) (d : Conn) : Act S → Conn
  | .reattach previous token connection =>
    if previous = d ∧ token = some (C.reattachToken previous) then connection else d
  | _ => d

theorem close_frame (C : Config) (s : State S) (c : Conn) :
    (s.close C c).tombstones = s.tombstones ∧ (s.close C c).expired = s.expired ∧ (s.close C c).now = s.now := by
  unfold close
  split
  · exact ⟨rfl, rfl, rfl⟩
  · unfold connectionClosed
    split <;> exact ⟨rfl, rfl, rfl⟩

/-- A wrong token changes nothing. -/
theorem onReattach_wrong (hwaiting : Waiting C s) {token : Option Token} (htoken : token ≠ some (C.reattachToken p)) :
    s.onReattach C p token c = s := by
  unfold onReattach
  split
  · rfl
  · split
    · rfl
    · rename_i hguard
      split
      · rfl
      · rename_i token
        have hne : token ≠ C.reattachToken p := fun h => htoken (congrArg some h)
        have hclosed : s.claimed p = true := by simpa [hne] using hguard
        have hclose : s.close C p = s := if_pos hclosed
        rw [hclose]
        unfold reattach reattachLate
        rw [if_neg fun hdeparted => hne (hwaiting.token hdeparted).1]
        split
        · rfl
        · rename_i e he
          rw [if_neg]
          rw [hwaiting.late he]
          simp [Ne.symm hne]

theorem Kept.onReattach (h : Kept C id d u s) (hu : s.now < u) (hindexed : Indexed C s) (hwaiting : Waiting C s)
    (token : Option Token) (hcareful : s.careful C (.reattach p token c) = true) :
    Kept C id (seat C d (.reattach p token c : Act S)) u (s.onReattach C p token c) := by
  show Kept C id (if p = d ∧ token = some (C.reattachToken p) then c else d) u _
  by_cases htoken : token = some (C.reattachToken p)
  · subst htoken
    rw [if_congr (and_iff_left rfl) rfl rfl]
    unfold State.onReattach
    by_cases hpc : p = c
    · rw [if_pos hpc]
      have hseat : (if p = d then c else d) = d := by
        split
        · rename_i hp
          exact hpc.symm.trans hp
        · rfl
      rw [hseat]
      exact h
    · have hguard : ¬ (!s.claimed p && some (C.reattachToken p) != some (C.reattachToken p)) = true := by simp
      rw [if_neg hpc, if_neg hguard]
      obtain ⟨hroom, hopen, hleaves, hundisputed⟩ := careful_reattach hpc hcareful
      have hkept := h.close hu hleaves
      obtain ⟨htombstones, hexpired, hnow⟩ := close_frame C s p
      have hclaimed := claimed_close C s p
      have hopen' : (s.close C p).claimed c = false := by
        rw [hclaimed, Function.update_of_ne (Ne.symm hpc)]
        exact hopen
      have hwaiting' := hwaiting.close hindexed p
      simp only
      unfold State.reattach
      by_cases hdeparted : (s.close C p).departed p = some (C.reattachToken p)
      · rw [if_pos hdeparted]
        exact hkept.move hopen'
      · rw [if_neg hdeparted]
        apply hkept.reattachLate
        · rw [hnow]
          exact hu
        · exact hwaiting'
        · cases hget : (s.close C p).departed p with
          | none => rfl
          | some t =>
            rw [hget, (hwaiting'.token hget).1] at hdeparted
            exact absurd rfl hdeparted
        · rw [hclaimed, Function.update_self]
        · exact hopen'
        · intro e he
          rw [hexpired] at he
          have hall := hundisputed e he
          unfold undisputed at hall ⊢
          rw [htombstones, hnow]
          exact hall
        · rw [htombstones, hexpired]
          exact room_le hroom
  · rw [if_neg fun h' => htoken h'.2, onReattach_wrong hwaiting htoken]
    exact h

theorem Kept.create (h : Kept C id d u s) (other : String) (hne : other ≠ id) (spec : S) :
    Kept C id d u (s.create C c other spec) := by
  have hpublished : Kept C id d u (s.publish c other spec) := by
    refine ⟨⟨?_, h.tombstone⟩, h.soon, h.way⟩
    show Function.update s.byId other _ id = none
    rw [Function.update_of_ne (Ne.symm hne)]
    exact h.gone
  unfold State.create
  split
  · exact hpublished.connectionClosed c
  · exact hpublished

variable [DecidableEq S]

/-- The replay of a disposed observer is answered with its disposal. -/
theorem observe_disposed (h : Grave id c u s) (hu : s.now < u) (hformed : C.wellFormed id = true) (spec : S)
    (refusal : Option ErrorBody) : ∃ reason, s.observe C c id spec refusal = (s, .disposed reason) := by
  obtain ⟨t, ht, hconnection, hlasts⟩ := h.tombstone
  have hdeadline : s.now < t.deadline := by omega
  refine ⟨t.reason, ?_⟩
  simp [observe, hformed, h.gone, ht, hconnection, hdeadline, Option.filter]

theorem observe_cases (C : Config) (s : State S) (c : Conn) (id : String) (spec : S) (refusal : Option ErrorBody) :
    (s.observe C c id spec refusal).1 = s ∨
      (s.observe C c id spec refusal).1 = s.create C c id spec ∧ s.byId id = none ∧ C.wellFormed id = true := by
  unfold observe
  split
  · exact .inl rfl
  · rename_i hformed
    split
    · split
      · exact .inl rfl
      · split <;> exact .inl rfl
    · rename_i hfree
      split
      · exact .inl rfl
      · split
        · exact .inl rfl
        · exact .inr ⟨rfl, hfree, by simpa using hformed⟩

theorem Indexed.step (h : Indexed C s) (a : Act S) : Indexed C (s.step C a).1 := by
  cases a with
  | observe c id spec refusal =>
    show Indexed C (s.observe C c id spec refusal).1
    rcases observe_cases C s c id spec refusal with heq | ⟨heq, hfree, hformed⟩
    · rw [heq]
      exact h
    · rw [heq]
      exact h.create c id spec hfree hformed
  | dispose id reason => exact h.dispose id reason
  | unobserve c id =>
    show Indexed C (s.unobserve C c id)
    unfold unobserve
    split
    · split
      · exact h.dispose id _
      · exact h
    · exact h
  | close c => exact h.close c
  | graceElapsed c => exact h.graceElapsed c
  | reattach p token c => exact h.onReattach p token c
  | tick ms => exact ⟨h.index, h.listed, h.formed⟩

theorem Waiting.step (h : Waiting C s) (hindexed : Indexed C s) {a : Act S} (hcareful : s.careful C a = true) :
    Waiting C (s.step C a).1 := by
  cases a with
  | observe c id spec refusal =>
    show Waiting C (s.observe C c id spec refusal).1
    rcases observe_cases C s c id spec refusal with heq | ⟨heq, hfree, hformed⟩
    · rw [heq]
      exact h
    · rw [heq]
      exact h.create hindexed c id spec hfree hformed
  | dispose id reason => exact h.dispose id reason
  | unobserve c id =>
    show Waiting C (s.unobserve C c id)
    unfold unobserve
    split
    · split
      · exact h.dispose id _
      · exact h
    · exact h
  | close c => exact h.close hindexed c
  | graceElapsed c => exact h.graceElapsed hindexed c
  | reattach p token c =>
    apply h.onReattach hindexed p token c
    rintro hpc rfl
    exact (careful_reattach hpc hcareful).2.1
  | tick ms => exact ⟨h.away, h.token, h.late⟩

theorem Kept.step (h : Kept C id d u s) (hu : s.now < u) (hindexed : Indexed C s) (hwaiting : Waiting C s)
    (hretention : C.observerGraceMs ≤ C.disposedRetentionMs) {a : Act S} (hcareful : s.careful C a = true) :
    Kept C id (seat C d a) u (s.step C a).1 := by
  have hroom := (Bool.and_eq_true_iff.mp hcareful).1
  cases a with
  | observe c other spec refusal =>
    show Kept C id d u (s.observe C c other spec refusal).1
    rcases observe_cases C s c other spec refusal with heq | ⟨heq, hfree, hformed⟩
    · rw [heq]
      exact h
    · by_cases hother : other = id
      · -- only the worker that had it asks for it, and is answered with the disposal
        subst hother
        have hundisputed := (Bool.and_eq_true_iff.mp hcareful).2
        obtain rfl := h.toGrave.connection_eq hu hundisputed (List.mem_singleton_self _)
        obtain ⟨reason, hanswer⟩ := observe_disposed h.toGrave hu hformed spec refusal
        rw [hanswer]
        exact h
      · rw [heq]
        exact h.create other hother spec
  | dispose other reason => exact h.dispose hu other reason (room_le hroom)
  | unobserve c other =>
    show Kept C id d u (s.unobserve C c other)
    unfold unobserve
    split
    · split
      · exact h.dispose hu other _ (room_le hroom)
      · exact h
    · exact h
  | close c => exact h.close hu (by simpa [careful] using (Bool.and_eq_true_iff.mp hcareful).2)
  | graceElapsed c =>
    have hheld := of_decide_eq_true (Bool.and_eq_true_iff.mp hroom).2
    exact h.graceElapsed hu c hretention (room_le hroom) hheld
  | reattach p token c => exact h.onReattach hu hindexed hwaiting token hcareful
  | tick ms =>
    refine ⟨⟨h.gone, h.tombstone⟩, ?_, h.way⟩
    show u ≤ s.now + ms + C.observerGraceMs
    have hsoon := h.soon
    omega

/-! ### Runs -/

omit [DecidableEq S] in
theorem connectionClosed_live (c : Conn) (hlive : s.byId id ≠ none) : (s.connectionClosed C c).byId id ≠ none := by
  unfold connectionClosed
  split
  · exact hlive
  · show (s.byId id).map _ ≠ none
    simpa using hlive

omit [DecidableEq S] in
theorem close_live (c : Conn) (hlive : s.byId id ≠ none) : (s.close C c).byId id ≠ none := by
  unfold close
  split
  · exact hlive
  · exact connectionClosed_live (s := { s with claimed := Function.update s.claimed c true }) c hlive

omit [DecidableEq S] in
theorem onReattach_live (p : Conn) (token : Option Token) (c : Conn) (hlive : s.byId id ≠ none) :
    (s.onReattach C p token c).byId id ≠ none := by
  unfold onReattach
  split
  · exact hlive
  · split
    · exact hlive
    · split
      · exact hlive
      · rename_i token _
        unfold reattach
        split
        · show ((s.close C p).byId id).map _ ≠ none
          simpa using close_live p hlive
        · rw [(reattachLate_frame C (s.close C p) p token c).1]
          exact close_live p hlive

theorem observe_live (c : Conn) (other : String) (spec : S) (refusal : Option ErrorBody) (hlive : s.byId id ≠ none) :
    (s.observe C c other spec refusal).1.byId id ≠ none := by
  rcases observe_cases C s c other spec refusal with heq | ⟨heq, hfree, _⟩
  · rw [heq]
    exact hlive
  · have hne : id ≠ other := fun h => hlive (h ▸ hfree)
    have hpublished : (s.publish c other spec).byId id ≠ none := by
      show Function.update s.byId other _ id ≠ none
      rw [Function.update_of_ne hne]
      exact hlive
    rw [heq, State.create]
    split
    · exact connectionClosed_live c hpublished
    · exact hpublished

/-- The step that disposes an observer digs its grave where the worker is. -/
theorem Kept.of_disposed (hwaiting : Waiting C s)
    (hretention : C.observerGraceMs ≤ C.disposedRetentionMs) {a : Act S} (hcareful : s.careful C a = true)
    {o : Observer S} (hlive : s.byId id = some o) (hgone : (s.step C a).1.byId id = none)
    (hgrace : 0 < C.observerGraceMs) :
    Kept C id o.connection (s.now + C.observerGraceMs) (s.step C a).1 := by
  have hroom := (Bool.and_eq_true_iff.mp hcareful).1
  have hthere : s.byId id ≠ none := by
    rw [hlive]
    exact Option.some_ne_none _
  have hdispose : ∀ other reason, (s.dispose C other reason).byId id = none →
      s.tombstones.length + 1 ≤ maxTombstones →
        Kept C id o.connection (s.now + C.observerGraceMs) (s.dispose C other reason) := by
    intro other reason hgone hroom
    obtain ⟨hdeparted, _, hclaimed, hnow, hbyId, _⟩ := dispose_frame C s other reason
    obtain rfl : other = id := by
      by_contra hne
      rw [hbyId, Function.update_of_ne (Ne.symm hne)] at hgone
      exact hthere hgone
    refine ⟨dispose_grave hlive reason hgrace hroom, ?_, ?_⟩
    · exact Nat.le_of_eq (by rw [hnow])
    · rw [hdeparted, hclaimed]
      exact fun hclosed => .inl (hwaiting.away hlive hclosed).1
  cases a with
  | observe c other spec refusal => exact absurd hgone (observe_live c other spec refusal hthere)
  | dispose other reason => exact hdispose other reason hgone (room_le hroom)
  | unobserve c other =>
    replace hgone : (s.unobserve C c other).byId id = none := hgone
    show Kept C id _ _ (s.unobserve C c other)
    unfold State.unobserve at hgone ⊢
    split
    · rename_i v hv
      simp only [hv] at hgone
      split
      · rename_i howner
        rw [if_pos howner] at hgone
        exact hdispose other _ hgone (room_le hroom)
      · rename_i howner
        rw [if_neg howner] at hgone
        exact absurd hgone hthere
    · rename_i hv
      simp only [hv] at hgone
      exact absurd hgone hthere
  | close c => exact absurd hgone (close_live c hthere)
  | graceElapsed c =>
    replace hgone : (s.graceElapsed C c).byId id = none := hgone
    show Kept C id _ _ (s.graceElapsed C c)
    have hheld := of_decide_eq_true (Bool.and_eq_true_iff.mp hroom).2
    cases hdeparted : s.departed c with
    | none =>
      unfold State.graceElapsed at hgone
      rw [hdeparted] at hgone
      exact absurd hgone hthere
    | some token =>
      rw [graceElapsed_eq hdeparted, (rememberExpired_frame C _ c token _).1] at hgone
      have haway := byId_disposeAway C { s with departed := Function.update s.departed c none } c (s.byConnection c) id
      replace haway : (s.afterGrace C c).byId id = _ := haway
      rw [hgone] at haway
      split at haway
      · rename_i howner
        replace howner : (s.byId id).any (fun o => o.connection == c && !o.connected) = true := howner.2
        obtain rfl : o.connection = c := by
          rw [hlive] at howner
          simp_all
        apply Kept.of_grace hdeparted _ (by omega) (Nat.le_refl _) hretention hheld
        exact disposeAway_grave (s := { s with departed := Function.update s.departed o.connection none }) hlive
          o.connection (s.byConnection o.connection) hgone hgrace (room_le hroom)
      · exact absurd haway.symm hthere
  | reattach p token c => exact absurd hgone (onReattach_live p token c hthere)
  | tick ms => exact absurd hgone hthere

end State

section
variable [DecidableEq S] {s₀ s₁ s₂ s₃ : State S} {tr tr' : List (Act S × Answer)} {a : Act S} {r : Answer}

/-- Where the worker of a connection is after a run. -/
def heir (C : Config) (c : Conn) : List (Act S × Answer) → Conn
  | [] => c
  | (a, _) :: tr => State.seat C (heir C c tr) a

theorem run_reachable (hrun : ((machine C).only fun s a => s.careful C a = true).Run State.start tr s) :
    s.Indexed C ∧ s.Waiting C := by
  refine hrun.invariant (I := fun s => s.Indexed C ∧ s.Waiting C) ⟨State.Indexed.start, State.Waiting.start⟩ ?_
  rintro s a r s' ⟨hindexed, hwaiting⟩ ⟨hcareful, hstep⟩
  obtain rfl : (s.step C a).1 = s' := congrArg Prod.fst hstep
  exact ⟨hindexed.step a, hwaiting.step hindexed hcareful⟩

omit [DecidableEq S] in
theorem connectionClosed_now (C : Config) (s : State S) (c : Conn) : (s.connectionClosed C c).now = s.now := by
  unfold State.connectionClosed
  split <;> rfl

theorem step_now_le (C : Config) (s : State S) (a : Act S) : s.now ≤ (s.step C a).1.now := by
  cases a with
  | observe c id spec refusal =>
    show s.now ≤ (s.observe C c id spec refusal).1.now
    rcases State.observe_cases C s c id spec refusal with heq | ⟨heq, _⟩
    · exact Nat.le_of_eq (by rw [heq])
    · rw [heq, State.create]
      split
      · rw [connectionClosed_now]
        exact Nat.le_refl _
      · exact Nat.le_refl _
  | dispose id reason => exact Nat.le_of_eq (State.dispose_frame C s id reason).2.2.2.1.symm
  | unobserve c id =>
    show s.now ≤ (s.unobserve C c id).now
    unfold State.unobserve
    split
    · split
      · exact Nat.le_of_eq (State.dispose_frame C s id _).2.2.2.1.symm
      · exact Nat.le_refl _
    · exact Nat.le_refl _
  | close c => exact Nat.le_of_eq (State.close_frame C s c).2.2.symm
  | graceElapsed c =>
    show s.now ≤ (s.graceElapsed C c).now
    cases hdeparted : s.departed c with
    | none =>
      unfold State.graceElapsed
      exact Nat.le_of_eq (by rw [hdeparted])
    | some token =>
      have hsame : (s.graceElapsed C c).now = s.now := by
        rw [State.graceElapsed_eq hdeparted, (State.rememberExpired_frame C _ c token _).2.2.2.2.2,
          (State.afterGrace_frame C s c).2.2.2.1]
      exact Nat.le_of_eq hsame.symm
  | reattach p token c =>
    show s.now ≤ (s.onReattach C p token c).now
    unfold State.onReattach
    split
    · exact Nat.le_refl _
    · split
      · exact Nat.le_refl _
      · split
        · exact Nat.le_refl _
        · have hclose := (State.close_frame C s p).2.2
          unfold State.reattach
          split
          · exact Nat.le_of_eq hclose.symm
          · exact Nat.le_of_eq (by rw [(State.reattachLate_frame C _ p _ c).2.2.2.2.1, hclose])
  | tick ms => exact Nat.le_add_right _ _

theorem run_kept (hrun : ((machine C).only fun s a => s.careful C a = true).Run s₁ tr s₂) (hkept : s₁.Kept C id c u)
    (hindexed : s₁.Indexed C) (hwaiting : s₁.Waiting C) (hretention : C.observerGraceMs ≤ C.disposedRetentionMs)
    (hu : s₂.now < u) : s₂.Kept C id (heir C c tr) u ∧ s₂.Indexed C ∧ s₂.Waiting C := by
  induction hrun with
  | nil => exact ⟨hkept, hindexed, hwaiting⟩
  | @step tr s s' a r _ hstep ih =>
    obtain ⟨hcareful, hstep⟩ := hstep
    obtain rfl : (s.step C a).1 = s' := congrArg Prod.fst hstep
    have hnow : s.now < u := Nat.lt_of_le_of_lt (step_now_le C s a) hu
    obtain ⟨hkept, hindexed, hwaiting⟩ := ih hnow
    exact ⟨hkept.step hnow hindexed hwaiting hretention hcareful, hindexed.step a, hwaiting.step hindexed hcareful⟩

end

/-! ### The last observer of a connection -/

def exampleConfig : Config where
  observerGraceMs := 30000
  disposedRetentionMs := 600000
  reattachToken := fun connection => 100 + connection
  wellFormed := fun id => id != ""

def exampleStep (s : State Unit) (a : Act Unit) : Option (State Unit × Answer) :=
  if s.careful exampleConfig a then some (s.step exampleConfig a) else none

end Iii.Observers
