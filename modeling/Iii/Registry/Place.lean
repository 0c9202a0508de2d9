import Iii.Registry.Leads

/-! Operations that put an observer somewhere: `reattach` under its new connection, and `create` in all indexes.

Half way through `reattach` the observers of the old connection are in no index of connections. That is what `away` is
for: the loop starts with all of them away and ends with nobody. -/
namespace Iii.Registry
open Lib
open Iii.Owner (Conn FnKey Flags ObserverState)
open Hooks (ErrorBody)

variable {S : Type} {s s' s'' : State S} {r : Ref} {o u : Observer S} {id : String} {key : FnKey}
  {away : Conn → String → Prop}

/-! ### `reattach` -/

def Nobody : Conn → String → Prop := fun _ _ => False

/-- The step of an operation that starts and ends with every observer under its connection. -/
structure Keeps (s s' : State S) : Prop where
  grows : Grows s s'
  sound : Sound s' Nobody
  follows : ∀ f, FollowsAt s s' f

theorem Leads.keeps (h : Leads s s') (hs : Sound s Nobody) : Keeps s s' :=
  ⟨h.grows, h.sound Nobody hs, h.follows Nobody hs⟩

theorem Keeps.leads (h : Keeps s s') (h' : Leads s' s'') : Keeps s s'' :=
  ⟨h.grows.trans h'.grows, h'.sound Nobody h.sound, fun f => (h.follows f).trans (h'.follows Nobody h.sound f)⟩

/-- Of the observers of `previous`, those that are yet to go over to the new connection. -/
def Departing (previous : Conn) (ids : List String) : Conn → String → Prop := fun c id => c = previous ∧ id ∈ ids

/-- Only those that can be found under the connection matter. -/
theorem Sound.away_congr (h : Sound s away) {away' : Conn → String → Prop}
    (heq : ∀ c id, (s.find id).map (·.connection) = some c → (away c id ↔ away' c id)) : Sound s away' := by
  refine ⟨{ h.indexed with connection := fun c id => ?_ }, h.awake⟩
  rw [h.indexed.connection]
  exact ⟨fun ⟨hc, haway⟩ => ⟨hc, fun haway' => haway ((heq c id hc).mpr haway')⟩,
    fun ⟨hc, haway⟩ => ⟨hc, fun haway' => haway ((heq c id hc).mp haway')⟩⟩

variable {previous c : Conn} {ids : List String}

theorem departing_cons_iff {id' : String} (hne : ¬(c = previous ∧ id' = id)) :
    Departing previous (id :: ids) c id' ↔ Departing previous ids c id' := by
  unfold Departing
  rw [List.mem_cons]
  refine ⟨fun ⟨hc, hid⟩ => ⟨hc, ?_⟩, fun ⟨hc, hid⟩ => ⟨hc, .inr hid⟩⟩
  rcases hid with hid | hid
  · exact absurd ⟨hc, hid⟩ hne
  · exact hid

/-- An observer that `previous` does not own any more stays where it is. -/
theorem Sound.skip (h : Sound s (Departing previous (id :: ids)))
    (hother : (s.find id).map (·.connection) ≠ some previous) : Sound s (Departing previous ids) := by
  refine h.away_congr fun c' id' hc => departing_cons_iff ?_
  rintro ⟨rfl, rfl⟩
  exact hother hc

/-- The state in which the observer is `c`'s, and its id is listed there. -/
theorem Sound.reparent (h : Sound s (Departing previous (id :: ids))) (hid : s.get id = some r)
    (ho : s.heap r = some o) (hprevious : o.connection = previous) (hfresh : id ∉ ids) :
    Sound (s.adopt r o c id) (Departing previous ids) := by
  obtain rfl := h.indexed.id_eq hid ho
  have hname : ∀ id', id' ≠ o.id → ((s.set r { o with connection := c }).find id') = s.find id' := by
    intro id' hne
    unfold State.find State.set
    cases hget : s.get id' with
    | none =>
      show (s.get id').bind _ = _
      rw [hget]
      rfl
    | some r' =>
      show (s.get id').bind _ = _
      rw [hget]
      refine Function.update_of_ne ?_ _ _
      rintro rfl
      exact hne (h.indexed.get_inj hget hid)
  have hself : (s.set r { o with connection := c }).find o.id = some { o with connection := c } :=
    find_eq hid (Function.update_self ..)
  refine ⟨Indexed.setAt (u := { o with connection := c }) h.indexed ho ⟨rfl, rfl, rfl, rfl, rfl, rfl⟩
    (fun hlost => absurd hid hlost) (fun c' id' => ?_) (h.indexed.tidy.1.add c o.id) (fun state hne => ?_),
    awake_set (u := { o with connection := c }) h.awake ho rfl⟩
  · rw [Multimap.mem_add, h.indexed.connection]
    by_cases heq : id' = o.id
    · rw [heq, hself, find_eq hid ho]
      unfold Departing
      constructor
      · rintro (⟨hc, haway⟩ | ⟨rfl, -⟩)
        · exact absurd ⟨(Option.some.inj hc).symm.trans hprevious, List.mem_cons_self⟩ haway
        · exact ⟨rfl, fun haway => hfresh haway.2⟩
      · rintro ⟨hc, -⟩
        exact .inr ⟨(Option.some.inj hc).symm, rfl⟩
    · rw [hname id' heq, departing_cons_iff fun hboth => heq hboth.2]
      exact ⟨fun hor => hor.resolve_right fun hboth => heq hboth.2, .inl⟩
  · rw [count_set_same (u := { o with connection := c }) ho rfl]
    exact h.indexed.counts state hne

theorem reparent_eq (hid : s.get id = some r) (ho : s.heap r = some o) (hprevious : o.connection = previous) :
    State.reparent previous c s id =
      (s.adopt r o c id).update r fun flags => { flags with observingConnected := true } := by
  unfold State.reparent
  rw [hid]
  dsimp only
  rw [ho]
  dsimp only
  rw [if_neg (not_not.mpr hprevious)]
  exact if_neg (not_not.mpr hid)

theorem reparent_other (hother : (s.find id).map (·.connection) ≠ some previous) :
    State.reparent previous c s id = s := by
  unfold State.reparent
  cases hid : s.get id with
  | none => rfl
  | some r =>
    dsimp only
    cases ho : s.heap r with
    | none => rfl
    | some o =>
      rw [find_eq hid ho] at hother
      exact if_pos fun heq => hother (congrArg some heq)

theorem reparent_spec (h : Sound s (Departing previous (id :: ids))) (hfresh : id ∉ ids) :
    Grows s (State.reparent previous c s id) ∧ Sound (State.reparent previous c s id) (Departing previous ids) ∧
      ∀ f, FollowsAt s (State.reparent previous c s id) f := by
  by_cases hprevious : (s.find id).map (·.connection) = some previous
  · obtain ⟨o, ho, hprevious⟩ := Option.map_eq_some_iff.mp hprevious
    obtain ⟨r, hid, ho⟩ := Option.bind_eq_some_iff.mp ho
    have hmoved := h.reparent (c := c) hid ho hprevious hfresh
    rw [reparent_eq hid ho hprevious]
    have hupdated : Leads (s.adopt r o c id)
        ((s.adopt r o c id).update r fun flags => { flags with observingConnected := true }) := by
      refine update_leads ?_ _ r
      exact fun _ _ hdisposed => hdisposed
    have hgrows : Grows s (s.adopt r o c id) :=
      ⟨le_rfl, (Grows.set (u := { o with connection := c }) ho ⟨rfl, rfl, rfl, rfl, rfl, rfl⟩).heap⟩
    have hfollows : ∀ f, FollowsAt s (s.adopt r o c id) f := fun f =>
      have hset := follows_set (u := { o with connection := c }) ho rfl f
      ⟨hset.used, hset.told, hset.shown⟩
    exact ⟨hgrows.trans hupdated.grows, hupdated.sound _ hmoved,
      fun f => (hfollows f).trans (hupdated.follows _ hmoved f)⟩
  · rw [reparent_other hprevious]
    exact ⟨.refl s, h.skip hprevious, .refl s⟩

theorem reparents_spec (h : Sound s (Departing previous ids)) (hnodup : ids.Nodup) :
    Grows s (ids.foldl (State.reparent previous c) s) ∧ Sound (ids.foldl (State.reparent previous c) s) Nobody ∧
      ∀ f, FollowsAt s (ids.foldl (State.reparent previous c) s) f := by
  induction ids generalizing s with
  | nil => exact ⟨.refl s, h.away_congr fun _ _ _ => ⟨fun haway => absurd haway.2 List.not_mem_nil, False.elim⟩, .refl s⟩
  | cons id ids ih =>
    obtain ⟨hfresh, hnodup⟩ := List.nodup_cons.mp hnodup
    obtain ⟨hgrows, hsound, hfollows⟩ := reparent_spec (c := c) h hfresh
    obtain ⟨hgrows', hsound', hfollows'⟩ := ih hsound hnodup
    exact ⟨hgrows.trans hgrows', hsound', fun f => (hfollows f).trans (hfollows' f)⟩

theorem reattach_keeps (h : Sound s Nobody) (previous : Conn) (token : Token) (c : Conn) :
    Keeps s (s.reattach previous token c) := by
  unfold State.reattach
  split
  · have hcleared : Sound
        { s with
          departed := Function.update s.departed previous none
          byConnection := s.byConnection.clear previous } (Departing previous (s.byConnection.values previous)) := by
      refine ⟨{ h.indexed with
        connection := fun c' id => ?_, tidy := ⟨h.indexed.tidy.1.clear previous, h.indexed.tidy.2⟩ }, h.awake⟩
      show id ∈ Multimap.values (Multimap.clear _ _) c' ↔ _
      rw [Multimap.mem_clear, h.indexed.connection]
      constructor
      · rintro ⟨⟨hc, -⟩, hne⟩
        exact ⟨hc, fun haway => hne haway.1⟩
      · rintro ⟨hc, haway⟩
        refine ⟨⟨hc, fun hnobody => hnobody⟩, ?_⟩
        rintro rfl
        exact haway ⟨rfl, (h.indexed.connection c' _).mpr ⟨hc, False.elim⟩⟩
    obtain ⟨hgrows, hsound, hfollows⟩ := reparents_spec (c := c) hcleared (h.indexed.tidy.1.nodup previous)
    exact ⟨⟨hgrows.next, hgrows.heap⟩, hsound, fun f => ⟨(hfollows f).used, (hfollows f).told, (hfollows f).shown⟩⟩
  · exact ⟨.refl s, h, .refl s⟩

/-! ### `publish` -/

/-- `o` is in every index but the routed hook's view, at the next pointer. -/
structure Placed (s s' : State S) (o : Observer S) : Prop where
  heap : s'.heap = Function.update s.heap s.next (some o)
  next : s'.next = s.next + 1
  byId : s'.byId = Assoc.insert s.byId o.id s.next
  byConnection : s'.byConnection = s.byConnection.add o.connection o.id
  byTarget : s'.byTarget = s.byTarget.add o.target o.id
  stateCounts : s'.stateCounts = StateCounts.enter s.stateCounts o.state
  observersOf : ∀ f, s'.observersOf f = if f = o.function then s.observersOf f ++ [s.next] else s.observersOf f
  isAuto : ∀ f, s'.isAuto f = s.isAuto f
  observed : s'.observed = s.observed
  others : ∀ f, f ≠ o.function → s'.byFunction f = s.byFunction f

namespace Placed

theorem get (h : Placed s s' o) (id : String) : s'.get id = if o.id = id then some s.next else s.get id := by
  unfold State.get
  rw [h.byId, Assoc.get?_insert]

/-- The pointers that are in use are others. -/
theorem ne_next (hs : Indexed s away) (hid : s.get id = some r) : r ≠ s.next := by
  have hname := hs.named id r hid
  obtain ⟨o, ho, -⟩ := Option.map_eq_some_iff.mp hname
  unfold State.find at ho
  rw [hid] at ho
  exact (hs.fresh r (Option.isSome_of_eq_some ho)).ne

theorem heap_of_ne (h : Placed s s' o) (hr : r ≠ s.next) : s'.heap r = s.heap r := by
  rw [h.heap, Function.update_of_ne hr]

theorem find (h : Placed s s' o) (hs : Indexed s away) (id : String) :
    s'.find id = if o.id = id then some o else s.find id := by
  unfold State.find
  rw [h.get]
  split
  · rw [Option.bind_some, h.heap, Function.update_self]
  · cases hid : s.get id with
    | none => rfl
    | some r => rw [Option.bind_some, Option.bind_some, h.heap_of_ne (ne_next hs hid)]

theorem count (h : Placed s s' o) (hs : Indexed s away) (hfree : s.get o.id = none) (state : ObserverState) :
    s'.count state = s.count state + if o.state = state then 1 else 0 := by
  unfold State.count
  rw [h.byId, Assoc.insert_of_absent hfree, List.countP_append]
  have hold : s.byId.countP (fun m => (s'.heap m.2).any (·.state = state)) =
      s.byId.countP fun m => (s.heap m.2).any (·.state = state) := by
    refine List.countP_congr fun m hm => ?_
    rw [h.heap_of_ne (ne_next hs (Assoc.get?_of_mem hs.distinct hm))]
  rw [hold, List.countP_singleton, h.heap, Function.update_self, Option.any_some]
  simp only [decide_eq_true_eq]

theorem sound (h : Placed s s' o) (hs : Sound s Nobody) (hfree : s.get o.id = none) (hstate : o.state ≠ .disposed) :
    Sound s' Nobody := by
  have hfind := h.find hs.indexed
  have hne : ∀ {id r}, s.get id = some r → o.id ≠ id := by
    rintro id r hid rfl
    rw [hfree] at hid
    cases hid
  have hunfound : s.find o.id = none := by
    unfold State.find
    rw [hfree]
    rfl
  refine ⟨⟨?_, fun id r hid => ?_, fun r hr => ?_, fun r u hu hlost => ?_, fun c id => ?_, fun t id => ?_, ?_,
    fun f r => ?_, fun f => ?_, fun state hne => ?_⟩, fun id u hu => ?_⟩
  · rw [h.byId]
    exact Assoc.distinct_insert hs.indexed.distinct _ _
  · rw [hfind]
    rw [h.get] at hid
    split at hid
    · rename_i heq
      rw [if_pos heq, heq.symm]
      rfl
    · rename_i heq
      rw [if_neg heq]
      exact hs.indexed.named id r hid
  · rw [h.next]
    rw [h.heap, Function.update_apply] at hr
    split at hr
    · rename_i heq
      exact heq ▸ Nat.lt_succ_self _
    · exact (hs.indexed.fresh r hr).trans (Nat.lt_succ_self _)
  · rw [h.heap, Function.update_apply] at hu
    split at hu
    · rename_i heq
      cases hu
      rw [h.get, if_pos rfl, heq] at hlost
      exact absurd rfl hlost
    · refine hs.indexed.gone r u hu fun hid => hlost ?_
      rw [h.get, if_neg (hne hid), hid]
  · rw [h.byConnection, Multimap.mem_add, hs.indexed.connection, hfind]
    split
    · rename_i heq
      rw [← heq, hunfound]
      constructor
      · rintro (⟨hc, -⟩ | ⟨rfl, -⟩)
        · cases hc
        · exact ⟨rfl, fun hnobody => hnobody⟩
      · rintro ⟨hc, -⟩
        exact .inr ⟨(Option.some.inj hc).symm, rfl⟩
    · rename_i heq
      exact ⟨fun hor => hor.resolve_right fun hboth => heq hboth.2.symm, .inl⟩
  · rw [h.byTarget, Multimap.mem_add, hs.indexed.target, hfind]
    split
    · rename_i heq
      rw [← heq, hunfound]
      constructor
      · rintro (ht | ⟨rfl, -⟩)
        · cases ht
        · rfl
      · exact fun ht => .inr ⟨(Option.some.inj ht).symm, rfl⟩
    · rename_i heq
      exact ⟨fun hor => hor.resolve_right fun hboth => heq hboth.2.symm, .inl⟩
  · rw [h.byConnection, h.byTarget]
    exact ⟨hs.indexed.tidy.1.add _ _, hs.indexed.tidy.2.add _ _⟩
  · have hold := hs.indexed.function f r
    have hlisted : r ∈ s'.observersOf f ↔ r ∈ s.observersOf f ∨ f = o.function ∧ r = s.next := by
      rw [h.observersOf]
      split
      · rename_i heq
        simp [heq]
      · rename_i heq
        simp [heq]
    rw [hlisted, hold]
    constructor
    · rintro (⟨id, hid, hf⟩ | ⟨rfl, rfl⟩)
      · exact ⟨id, by rw [h.get, if_neg (hne hid), hid], by rw [hfind, if_neg (hne hid), hf]⟩
      · exact ⟨o.id, by rw [h.get, if_pos rfl], by rw [hfind, if_pos rfl]; rfl⟩
    · rintro ⟨id, hid, hf⟩
      rw [h.get] at hid
      rw [hfind] at hf
      split at hid
      · rename_i heq
        rw [if_pos heq] at hf
        exact .inr ⟨(Option.some.inj hf).symm, (Option.some.inj hid).symm⟩
      · rename_i heq
        rw [if_neg heq] at hf
        exact .inl ⟨id, hid, hf⟩
  · rw [h.observersOf]
    split
    · refine List.nodup_append.mpr ⟨hs.indexed.nodup f, List.nodup_singleton _, fun r hr r' hr' => ?_⟩
      obtain ⟨id, hid, -⟩ := (hs.indexed.function f r).mp hr
      rw [List.mem_singleton.mp hr']
      exact ne_next hs.indexed hid
    · exact hs.indexed.nodup f
  · rw [h.stateCounts, StateCounts.enter_apply hne, hs.indexed.counts state hne, h.count hs.indexed hfree]
    push_cast
    rfl
  · rw [hfind] at hu
    split at hu
    · cases hu
      exact hstate
    · exact hs.awake id u hu

theorem grows (h : Placed s s' o) (hs : Indexed s away) : Grows s s' := by
  refine ⟨h.next ▸ Nat.le_succ _, fun r u hu => ⟨u, ?_, rfl, rfl, rfl, rfl, rfl, rfl⟩⟩
  rw [h.heap_of_ne (hs.fresh r (Option.isSome_of_eq_some hu)).ne]
  exact hu

theorem used (h : Placed s s' o) {f : FnKey} (hused : Used s f) : Used s' f := by
  intro e he
  by_cases hf : f = o.function
  · have hobservers := h.observersOf f
    rw [observersOf_of_entry he, if_pos hf] at hobservers
    unfold FunctionEntry.isUnused
    rw [hobservers]
    simp
  · rw [h.others f hf] at he
    exact hused e he

/-- The active observers are those before, unless it is one itself. -/
theorem activeOf (h : Placed s s' o) (hs : Indexed s away) {f : FnKey} (hf : f ≠ o.function ∨ o.state ≠ .active) :
    s'.activeOf f = s.activeOf f := by
  have hold : (s.observersOf f).filter s'.isActive = s.activeOf f := by
    refine List.filter_congr fun r hr => ?_
    obtain ⟨id, hid, -⟩ := (hs.function f r).mp hr
    unfold State.isActive
    rw [h.heap_of_ne (ne_next hs hid)]
  unfold State.activeOf at hold ⊢
  rw [h.observersOf]
  split
  · rename_i heq
    have hinactive : s'.isActive s.next = false := by
      unfold State.isActive
      rw [h.heap, Function.update_self, Option.any_some]
      exact decide_eq_false (hf.resolve_left (not_not.mpr heq))
    rw [List.filter_append, hold, List.filter_cons, hinactive]
    exact List.append_nil _
  · exact hold

theorem follows (h : Placed s s' o) (hs : Indexed s away) {f : FnKey} (hf : f ≠ o.function ∨ o.state ≠ .active) :
    FollowsAt s s' f :=
  ⟨h.used, told_congr (h.activeOf hs hf) (congrFun h.observed f),
    shown_congr (h.activeOf hs hf) (congrFun h.observed f) (h.isAuto f)⟩

end Placed

/-- Once it is in the entry of its function, it hears whether its owner has to ack it. -/
theorem attachToFunction_spec (D : Deps) (s : State S) (r : Ref) (key : FnKey) :
    ∃ e : FunctionEntry, e.observers = s.observersOf key ++ [r] ∧ e.isAuto = s.isAuto key ∧
      Leads ((s.entryFor key).1.setEntry key (some e)) (s.attachToFunction D r key) := by
  have hentered := entryFor_entered s key
  have hobservers : (s.entryFor key).2.observers ++ [r] = s.observersOf key ++ [r] := by rw [hentered.observers]
  unfold State.attachToFunction
  dsimp only
  split
  · refine ⟨{ (s.entryFor key).2 with observers := (s.entryFor key).2.observers ++ [r] }, hobservers, hentered.auto,
      update_leads ?_ _ r⟩
    exact fun _ _ hdisposed => hdisposed
  · refine ⟨{ (s.entryFor key).2 with
      observers := (s.entryFor key).2.observers ++ [r], revision := (s.entryFor key).2.revision + 1 },
      hobservers, hentered.auto, ?_⟩
    exact (announce_leads _ r _ _).trans (notify_leads _ _ _)

theorem placed_enlist {e : FunctionEntry} (hobservers : e.observers = (s.enlist o).observersOf o.function ++ [s.next])
    (hauto : e.isAuto = (s.enlist o).isAuto o.function) :
    Placed s (((s.enlist o).entryFor o.function).1.setEntry o.function (some e)) o := by
  have hentered := entryFor_entered (s.enlist o) o.function
  refine ⟨hentered.same.heap, hentered.same.next, hentered.same.byId, hentered.same.byConnection,
    hentered.same.byTarget, hentered.same.stateCounts, fun f => ?_, fun f => ?_, hentered.observed, fun f hf => ?_⟩
  · rw [observersOf_setEntry]
    split
    · rename_i heq
      rw [heq]
      exact hobservers
    · exact hentered.same.observersOf f
  · rw [isAuto_setEntry]
    split
    · rename_i heq
      rw [heq]
      exact hauto
    · rename_i hf
      unfold State.isAuto
      rw [hentered.others f hf]
      rfl
  · exact (Function.update_of_ne hf _ _).trans (hentered.others f hf)

theorem publish_keeps (D : Deps) (hs : Sound s Nobody) (hfree : s.get o.id = none) (hstate : o.state ≠ .disposed) :
    Keeps s (s.publish D o) := by
  obtain ⟨e, hobservers, hauto, hleads⟩ := attachToFunction_spec D (s.enlist o) s.next o.function
  have hplaced := placed_enlist hobservers hauto
  have hsound := hplaced.sound hs hfree hstate
  have hfollows := hleads.follows Nobody hsound
  unfold State.publish
  dsimp only
  split
  · have hsame := refreshActive_same ((s.enlist o).attachToFunction D s.next o.function) o.function
    have hrefreshed := refreshActive_follows ((s.enlist o).attachToFunction D s.next o.function) o.function
    refine ⟨((hplaced.grows hs.indexed).trans hleads.grows).trans hsame.grows, (hleads.sound Nobody hsound).congr hsame,
      fun f => ?_⟩
    by_cases hf : f = o.function
    · subst hf
      have hshown := refreshActive_shown ((s.enlist o).attachToFunction D s.next o.function) o.function
      exact ⟨fun hused => (hrefreshed _).used ((hfollows _).used (hplaced.used hused)), fun _ => hshown.told,
        fun _ => hshown⟩
    · exact ((hplaced.follows hs.indexed (.inl hf)).trans (hfollows f)).trans (hrefreshed f)
  · rename_i hinactive
    exact ⟨(hplaced.grows hs.indexed).trans hleads.grows, hleads.sound Nobody hsound,
      fun f => (hplaced.follows hs.indexed (.inr hinactive)).trans (hfollows f)⟩

/-- It is there as it was made. -/
theorem publish_made (D : Deps) (s : State S) (o : Observer S) :
    ∃ u, (s.publish D o).heap s.next = some u ∧ Alike o u := by
  obtain ⟨e, hobservers, hauto, hleads⟩ := attachToFunction_spec D (s.enlist o) s.next o.function
  obtain ⟨u, hu, halike⟩ := hleads.grows.heap s.next o (by
    rw [(placed_enlist hobservers hauto).heap, Function.update_self])
  unfold State.publish
  dsimp only
  split
  · exact ⟨u, hu, halike⟩
  · exact ⟨u, hu, halike⟩

theorem Indexed.get_of_unfound (h : Indexed s away) (hunfound : s.find id = none) : s.get id = none := by
  cases hid : s.get id with
  | none => rfl
  | some r =>
    have hname := h.named id r hid
    rw [hunfound] at hname
    cases hname

theorem new_state (o : Observer S) (h : o.flags.disposed = none) : o.new.state ≠ .disposed := by
  intro hstate
  have hderive : o.derive o.flags = (.disposed, (o.derive o.flags).2) := Prod.ext hstate rfl
  obtain ⟨body, hdisposed, -⟩ := disposed_of_derive hderive
  rw [h] at hdisposed
  cases hdisposed

section
variable [DecidableEq S]

/-- An id that `create` takes: a text of at most 128 bytes that is not blank. -/
def IdOk (id : String) : Prop := ¬(isBlank id || id.utf8ByteSize > maxObserverIdLen) = true

variable {checked : Except ErrorBody Checked} {tombstone : Option ErrorBody} {closing : Option Token}
    {R : Request S}

theorem create_of_not_idOk {D : Deps} {c : Conn} {after : Deps} (hid : ¬IdOk R.id) :
    s.create D c R tombstone checked after closing ≠ .ok s' := by
  unfold State.create
  rw [if_pos (not_not.mp hid)]
  nofun

/-- An `observe` of an id that is taken is decided by the connection and the specs. -/
theorem create_found (hid : IdOk R.id) (ho : s.find R.id = some o) (D : Deps) (c : Conn)
    (tombstone : Option ErrorBody) (checked : Except ErrorBody Checked) (after : Deps) (closing : Option Token) :
    s.create D c R tombstone checked after closing =
      if o.connection = c ∧ o.spec = R.spec s.config.defaultMaxInFlight then
        .ok (s.notify c
          (.observeResult R.id o.state (if o.state = .error then o.reason else none) o.warnings))
      else
        .error ⟨"OBSERVER_ID_CONFLICT",
          if o.connection = c then s!"observer `{R.id}` already exists with a different spec"
          else s!"observer `{R.id}` is owned by another connection"⟩ := by
  have hfound : (s.get R.id).bind s.heap = some o := ho
  unfold State.create
  rw [if_neg hid, hfound]

/-- It answers, or it publishes a new observer. -/
theorem create_cases {D : Deps} {c : Conn} {after : Deps} (hs : Indexed s away)
    (h : s.create D c R tombstone checked after closing = .ok s') :
    (∃ message, s' = s.notify c message) ∨
      ∃ checked', checked = .ok checked' ∧ s.get R.id = none ∧
        Leads (s.publish D (s.newObserver D c R checked')) s' := by
  unfold State.create at h
  split at h
  · cases h
  · split at h
    · split at h
      · cases h
        exact .inl ⟨_, rfl⟩
      · cases h
    · rename_i hunfound
      split at h
      · cases h
        exact .inl ⟨_, rfl⟩
      · cases checked with
        | error error => cases h
        | ok checked =>
          dsimp only [bind, Except.bind] at h
          split at h
          · cases h
          · have hupdated : Leads (s.publish D (s.newObserver D c R checked))
                ((s.publish D (s.newObserver D c R checked)).update s.next fun flags =>
                  { flags with
                    functionAvailable := after.isRegistered (s.newObserver D c R checked).function
                    targetAvailable := after.isRegistered (s.newObserver D c R checked).target }) := by
              refine update_leads ?_ _ s.next
              exact fun _ _ hdisposed => hdisposed
            refine .inr ⟨checked, rfl, hs.get_of_unfound hunfound, ?_⟩
            split at h
            · rename_i token
              cases h
              exact hupdated.trans (connectionClosed_leads _ c token true)
            · cases h
              exact hupdated

theorem create_keeps {D : Deps} {c : Conn} {after : Deps} (hs : Sound s Nobody)
    (h : s.create D c R tombstone checked after closing = .ok s') : Keeps s s' := by
  obtain ⟨message, rfl⟩ | ⟨checked', -, hfree, hleads⟩ := create_cases hs.indexed h
  · exact (notify_leads s c message).keeps hs
  · exact (publish_keeps D hs hfree (new_state _ rfl)).leads hleads

theorem observe_keeps (D : Deps) (hs : Sound s Nobody) (c : Conn) (R : Request S) (tombstone : Option ErrorBody)
    (checked : Except ErrorBody Checked) (after : Deps) (closing : Option Token) :
    Keeps s (s.observe D c R tombstone checked after closing) := by
  unfold State.observe
  split
  · rename_i s' h
    exact create_keeps hs h
  · exact (notify_leads s c _).keeps hs

end

end Iii.Registry
