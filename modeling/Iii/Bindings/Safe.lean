import Iii.Bindings.Tasks

/-! No binding is lost.

`Sound` is what every section keeps of the maps: a binding is in one bucket, a binding that is
being moved or activated is not parked, and what a registration asked for is live, parked or
the target of an operation in flight. A task that has a token knows what its entry in
`failing` says as long as the entry is its own. -/
namespace Iii.Bindings
open Lib

/-- The registration that is live, parked or in flight under an id. -/
def Registry.binding (r : Registry) (id : String) : Option Trigger :=
  match r.triggers id with
  | some t => some t.asked
  | none =>
    match r.pending id with
    | some t => some t.asked
    | none =>
      match r.failing id with
      | some x => if x.removing then none else some x.target.asked
      | none => none

structure Sound (r : Registry) : Prop where
  triggerId : ∀ id t, r.triggers id = some t → t.id = id
  pendingId : ∀ id t, r.pending id = some t → t.id = id
  targetId : ∀ id x, r.failing id = some x → x.target.id = id
  worker : ∀ id x, r.failing id = some x → x.worker = x.target.worker
  disjoint : ∀ id t, r.triggers id = some t → r.pending id = none
  free : ∀ id x, r.failing id = some x → x.removing = false → r.pending id = none
  same : ∀ id x t, r.failing id = some x → x.removing = false → r.triggers id = some t →
    t.asked = x.target.asked
  fresh : ∀ id x, r.failing id = some x → x.token ≤ r.tokens
  kept : ∀ id e, r.expected id = some e → r.binding id = some e

theorem Sound.empty : Sound .empty := by
  constructor <;> simp [Registry.empty]

section
variable {r : Registry} {id : String} {t : Trigger}

@[simp] theorem asked_served (t : Trigger) (n : String) : (t.served n).asked = t.asked := rfl
@[simp] theorem id_served (t : Trigger) (n : String) : (t.served n).id = t.id := rfl
@[simp] theorem worker_served (t : Trigger) (n : String) : (t.served n).worker = t.worker := rfl
theorem worker_asked (t : Trigger) : t.asked.worker = t.worker := rfl

/-- The parts of the registry that no binding depends on. -/
theorem Sound.congr {r' : Registry} (h : Sound r) (htriggers : r'.triggers = r.triggers)
    (hpending : r'.pending = r.pending) (hfailing : r'.failing = r.failing) (htokens : r'.tokens = r.tokens)
    (hexpected : r'.expected = r.expected) : Sound r' := by
  have hbinding : r'.binding = r.binding := by
    funext id
    simp only [Registry.binding, htriggers, hpending, hfailing]
  constructor
  · rw [htriggers]; exact h.triggerId
  · rw [hpending]; exact h.pendingId
  · rw [hfailing]; exact h.targetId
  · rw [hfailing]; exact h.worker
  · rw [htriggers, hpending]; exact h.disjoint
  · rw [hfailing, hpending]; exact h.free
  · rw [hfailing, htriggers]; exact h.same
  · rw [hfailing, htokens]; exact h.fresh
  · rw [hexpected, hbinding]; exact h.kept

theorem Sound.publish (h : Sound r) (t : Trigger) : Sound (r.publish t) := by
  obtain ⟨h1, h2, h3, h4, h5, h6, h7, h8, h9⟩ := h
  constructor <;>
    dsimp only [Registry.publish, Registry.noteRegistered, Registry.setTrigger, Registry.dropPending,
      Registry.interruptFailover] <;>
    grind -ring -linarith [Function.update_apply, Registry.binding]

theorem Sound.park (h : Sound r) (t : Trigger) : Sound (r.park t) := by
  obtain ⟨h1, h2, h3, h4, h5, h6, h7, h8, h9⟩ := h
  constructor <;>
    dsimp only [Registry.park, Registry.noteRegistered, Registry.setPending, Registry.dropTrigger,
      Registry.interruptFailover] <;>
    grind -ring -linarith [Function.update_apply, Registry.binding]

theorem Sound.beginRemoval (h : Sound r) (ht : r.triggers id = some t) :
    Sound (r.beginTransition t true) := by
  obtain ⟨h1, h2, h3, h4, h5, h6, h7, h8, h9⟩ := h
  constructor <;> dsimp only [Registry.beginTransition] <;>
    grind -ring -linarith [Function.update_apply, Registry.binding]

/-- A live binding is moved. -/
theorem Sound.beginMove (h : Sound r) (ht : r.triggers id = some t) (n : String) :
    Sound (r.beginTransition (t.served n) false) := by
  obtain ⟨h1, h2, h3, h4, h5, h6, h7, h8, h9⟩ := h
  constructor <;> dsimp only [Registry.beginTransition] <;>
    grind -ring -linarith [Function.update_apply, Registry.binding, asked_served, id_served, worker_served]

theorem Sound.claimParked {r' : Registry} {key : TypeKey} (h : Sound r)
    (hc : r.claimParked id key = some (r', t)) : Sound r' := by
  unfold Registry.claimParked at hc
  obtain ⟨h1, h2, h3, h4, h5, h6, h7, h8, h9⟩ := h
  split at hc
  · cases hc
  · cases hp : r.pending id with
    | none => rw [hp] at hc; cases hc
    | some parked =>
      rw [hp] at hc
      cases hc
      constructor <;> dsimp only [Registry.beginTransition, Registry.dropPending] <;>
        grind -ring -linarith [Function.update_apply, Registry.binding, asked_served, id_served, worker_served]

/-- The provider a binding is to fail over to. -/
theorem Sound.retarget {x : Transition} {u : Trigger} (h : Sound r) (hx : r.failing id = some x)
    (hu : u.asked = x.target.asked) (hid : u.id = id) (hw : u.worker = x.worker) :
    Sound { r with failing := Function.update r.failing id (some { x with target := u }) } := by
  obtain ⟨h1, h2, h3, h4, h5, h6, h7, h8, h9⟩ := h
  constructor <;> grind -ring -linarith [Function.update_apply, Registry.binding]

theorem Sound.settleLive {x : Transition} (h : Sound r) (hx : r.failing t.id = some x)
    (hremoving : x.removing = false) (ht : x.target.asked = t.asked) :
    Sound ((r.interruptFailover t.id).setTrigger t) := by
  obtain ⟨h1, h2, h3, h4, h5, h6, h7, h8, h9⟩ := h
  constructor <;> dsimp only [Registry.interruptFailover, Registry.setTrigger] <;>
    grind -ring -linarith [Function.update_apply, Registry.binding]

theorem Sound.settleParked {x : Transition} (h : Sound r) (hx : r.failing t.id = some x)
    (hremoving : x.removing = false) (ht : x.target.asked = t.asked) :
    Sound (((r.interruptFailover t.id).dropTrigger t.id).setPending t) := by
  obtain ⟨h1, h2, h3, h4, h5, h6, h7, h8, h9⟩ := h
  constructor <;> dsimp only [Registry.interruptFailover, Registry.setPending, Registry.dropTrigger] <;>
    grind -ring -linarith [Function.update_apply, Registry.binding]

/-- The token goes, the binding stays where it is. -/
theorem Sound.interrupt (h : Sound r) (hid : (r.triggers id).isSome ∨ (r.pending id).isSome) :
    Sound (r.interruptFailover id) := by
  obtain ⟨h1, h2, h3, h4, h5, h6, h7, h8, h9⟩ := h
  constructor <;> dsimp only [Registry.interruptFailover] <;>
    grind -ring -linarith [Function.update_apply, Registry.binding]

theorem Sound.noteUnregistered (h : Sound r) (id : String) (edition : Nat) :
    Sound (r.noteUnregistered id edition) := by
  obtain ⟨h1, h2, h3, h4, h5, h6, h7, h8, h9⟩ := h
  constructor <;> dsimp only [Registry.noteUnregistered] <;>
    grind -ring -linarith [Function.update_apply, Registry.binding]

/-- An unregister that is still the one in flight. -/
theorem Sound.remove (h : Sound r) (id : String) (edition : Nat) :
    Sound ((((r.interruptFailover id).dropTrigger id).dropPending id).noteUnregistered id edition) := by
  obtain ⟨h1, h2, h3, h4, h5, h6, h7, h8, h9⟩ := h
  constructor <;>
    dsimp only [Registry.noteUnregistered, Registry.interruptFailover, Registry.dropPending,
      Registry.dropTrigger] <;>
    grind -ring -linarith [Function.update_apply, Registry.binding]

/-- An unregister of what is not live. -/
theorem Sound.removeParked (h : Sound r) (id : String) (edition : Nat) :
    Sound (((r.interruptFailover id).dropPending id).noteUnregistered id edition) := by
  obtain ⟨h1, h2, h3, h4, h5, h6, h7, h8, h9⟩ := h
  constructor <;>
    dsimp only [Registry.noteUnregistered, Registry.interruptFailover, Registry.dropPending] <;>
    grind -ring -linarith [Function.update_apply, Registry.binding]

theorem Sound.forgetWorker (h : Sound r) (w : Worker) : Sound (r.forgetWorker w) := by
  obtain ⟨h1, h2, h3, h4, h5, h6, h7, h8, h9⟩ := h
  constructor <;> dsimp only [Registry.forgetWorker] <;>
    grind -ring -linarith [Option.filter_eq_some_iff, Registry.binding, worker_asked]

theorem Sound.forgetPending (h : Sound r) (w : Worker) : Sound (r.forgetPending w) := by
  obtain ⟨h1, h2, h3, h4, h5, h6, h7, h8, h9⟩ := h
  constructor <;> dsimp only [Registry.forgetPending] <;>
    grind -ring -linarith [Option.filter_eq_some_iff, Registry.binding, worker_asked]

theorem Sound.dropOwned {w : Worker} (h : Sound r) (ht : r.triggers id = some t) (hw : t.worker = some w) :
    Sound (r.dropOwned w id) := by
  obtain ⟨h1, h2, h3, h4, h5, h6, h7, h8, h9⟩ := h
  constructor <;> dsimp only [Registry.dropOwned, Registry.dropTrigger, Registry.interruptFailover] <;>
    grind -ring -linarith [Function.update_apply, Option.filter_eq_some_iff, Registry.binding, worker_asked]

theorem Sound.reject (h : Sound r) (ht : r.triggers id = some t) :
    Sound (((if r.isRemoving id then r else r.interruptFailover id).dropTrigger id).setPending t) := by
  obtain ⟨h1, h2, h3, h4, h5, h6, h7, h8, h9⟩ := h
  split
  · constructor <;> dsimp only [Registry.dropTrigger, Registry.setPending] <;>
      grind -ring -linarith [Function.update_apply, Registry.binding, Registry.isRemoving]
  · constructor <;> dsimp only [Registry.dropTrigger, Registry.setPending, Registry.interruptFailover] <;>
      grind -ring -linarith [Function.update_apply, Registry.binding, Registry.isRemoving]

theorem Sound.recoverActivation (h : Sound r) (id : String) (token : Nat) (moved : Bool)
    (hx : ∀ x, r.failing id = some x → x.token = token → x.removing = false) :
    Sound (r.recoverActivation id token moved) := by
  obtain ⟨h1, h2, h3, h4, h5, h6, h7, h8, h9⟩ := h
  unfold Registry.recoverActivation
  split
  · exact ⟨h1, h2, h3, h4, h5, h6, h7, h8, h9⟩
  · split
    · exact ⟨h1, h2, h3, h4, h5, h6, h7, h8, h9⟩
    · cases moved
      · constructor <;> dsimp only [Registry.interruptFailover, Registry.setPending, Registry.dropTrigger] <;>
          grind -ring -linarith [Function.update_apply, Registry.binding]
      · simp only [if_true]
        split
        · constructor <;> dsimp only [Registry.interruptFailover, Registry.setPending] at * <;>
            grind -ring -linarith [Function.update_apply, Registry.binding]
        · constructor <;> dsimp only [Registry.interruptFailover] at * <;>
            grind -ring -linarith [Function.update_apply, Registry.binding]

/-- A failed removal leaves its binding where it is, or in flight again. -/
theorem Sound.recoverRemoval (h : Sound r) (id : String) (token gen : Nat)
    (hx : ∀ x, r.failing id = some x → x.token = token → x.removing = true) :
    Sound (r.recoverRemoval id token gen).1 := by
  have hmaps : (r.interruptFailover id).triggers = r.triggers ∧ (r.interruptFailover id).pending = r.pending :=
    ⟨rfl, rfl⟩
  obtain ⟨h1, h2, h3, h4, h5, h6, h7, h8, h9⟩ := h
  unfold Registry.recoverRemoval
  split
  · exact ⟨h1, h2, h3, h4, h5, h6, h7, h8, h9⟩
  · split
    · constructor <;> dsimp only [Registry.interruptFailover] <;>
        grind -ring -linarith [Function.update_apply, Registry.binding, Registry.isRemoving, Registry.isCurrent]
    · simp only [hmaps]
      split
      · constructor <;> dsimp only [Registry.interruptFailover] <;>
          grind -ring -linarith [Function.update_apply, Registry.binding, Registry.isRemoving, Option.or_eq_none_iff]
      · rename_i t ht
        split
        · apply Sound.interrupt ⟨h1, h2, h3, h4, h5, h6, h7, h8, h9⟩
          rcases Option.or_eq_some_iff.mp ht with ht | ⟨-, ht⟩
          · exact .inl (by rw [ht]; rfl)
          · exact .inr (by rw [ht]; rfl)
        · -- the binding comes from one of the maps, live or parked by a rejection meanwhile
          have hid : t.id = id := by
            rcases Option.or_eq_some_iff.mp ht with ht | ⟨-, ht⟩
            · exact h1 id t ht
            · exact h2 id t ht
          have hlive : ∀ u, r.triggers id = some u → u = t := by
            intro u hu
            rw [hu] at ht
            exact Option.some.inj ht
          have hparked : r.triggers id = none → r.pending id = some t := by
            intro hnone
            rwa [hnone] at ht
          clear ht
          constructor <;>
            dsimp only [Registry.interruptFailover, Registry.dropPending, Registry.beginTransition] <;>
            grind -ring -linarith [Function.update_apply, Registry.binding, Registry.isRemoving]

theorem Sound.claimOrphans (orphans : List Trigger) (h : Sound r)
    (ht : ∀ t ∈ orphans, r.triggers t.id = some t) : Sound (r.claimOrphans orphans).1 := by
  induction orphans generalizing r with
  | nil => exact h
  | cons t orphans ih =>
    have hbegin : Sound (r.beginTransition t false) := h.beginMove (ht t (List.mem_cons_self ..)) t.providerNamespace
    exact ih hbegin fun u hu => ht u (List.mem_cons_of_mem _ hu)

theorem Sound.bindingId (h : Sound r) (id : String) (u : Trigger)
    (hu : (r.triggers id).or (r.pending id) = some u) : u.id = id := by
  rcases Option.or_eq_some_iff.mp hu with hu | ⟨-, hu⟩
  · exact h.triggerId id u hu
  · exact h.pendingId id u hu

end

/-! ### What a task knows -/

/-- What a task with a token does: it moves or activates `trigger`, or removes it. -/
structure Operation where
  id : String
  token : Nat
  removing : Bool
  trigger : Trigger

def Task.operation : Task → Option Operation
  | .rehomeOld _ target token _ => some ⟨target.id, token, false, target⟩
  | .rehomeCurrent _ target token _ _ => some ⟨target.id, token, false, target⟩
  | .failOver t token => some ⟨t.id, token, false, t⟩
  | .failOverLook t token => some ⟨t.id, token, false, t⟩
  | .failOverPark t token => some ⟨t.id, token, false, t⟩
  | .removeLook t token _ => some ⟨t.id, token, true, t⟩
  | .removeDone t token _ => some ⟨t.id, token, true, t⟩
  | .await call (.activate token) => some ⟨call.trigger.id, token, false, call.trigger⟩
  | .await _ (.rehomeDetach target token _) => some ⟨target.id, token, false, target⟩
  | .await call (.rehome _ token _) => some ⟨call.trigger.id, token, false, call.trigger⟩
  | .await call (.failOver token) => some ⟨call.trigger.id, token, false, call.trigger⟩
  | .await call (.remove token _) => some ⟨call.trigger.id, token, true, call.trigger⟩
  | _ => none

/-- The binding a re-homing takes away from its old provider. -/
def Task.source : Task → Option Trigger
  | .rehomeOld source _ _ _ => some source
  | .rehomeCurrent source _ _ _ _ => some source
  | .await call (.rehomeDetach _ _ _) => some call.trigger
  | _ => none

/-- A task that has a token knows what its entry says. A re-homing leaves its binding live. -/
structure Knows (r : Registry) (t : Task) : Prop where
  fresh : ∀ o, t.operation = some o → o.token ≤ r.tokens
  entry : ∀ o x, t.operation = some o → r.failing o.id = some x → x.token = o.token →
    x.removing = o.removing ∧ (x.removing = false → x.target.asked = o.trigger.asked)
  sourceId : ∀ o u, t.operation = some o → t.source = some u → u.id = o.id
  live : ∀ o u x, t.operation = some o → t.source = some u → r.failing o.id = some x →
    x.token = o.token → r.triggers o.id ≠ none

/-- What a step does to the tokens: an entry stays as it was but for its provider, goes, or is
new. The live binding of one that stays is not taken away. -/
structure Follows (r r' : Registry) : Prop where
  tokens : r.tokens ≤ r'.tokens
  entry : ∀ id x', r'.failing id = some x' → x'.token ≤ r.tokens →
    ∃ x, r.failing id = some x ∧ x.token = x'.token ∧ x.removing = x'.removing ∧
      x.target.asked = x'.target.asked
  live : ∀ id x', r'.failing id = some x' → x'.token ≤ r.tokens → x'.removing = false →
    r.triggers id ≠ none → r'.triggers id ≠ none

variable {r r' : Registry} {t : Task} {news : List Task}

theorem Knows.follows (h : Knows r t) (hf : Follows r r') : Knows r' t := by
  constructor
  · intro o ho
    exact (h.fresh o ho).trans hf.tokens
  · intro o x' ho hx' htoken
    obtain ⟨x, hx, ht, hr, ha⟩ := hf.entry _ _ hx' (htoken ▸ h.fresh o ho)
    have := h.entry o x ho hx (ht.trans htoken)
    rw [← hr, ← ha]
    exact this
  · exact h.sourceId
  · intro o u x' ho hu hx' htoken
    obtain ⟨x, hx, ht, hr, ha⟩ := hf.entry _ _ hx' (htoken ▸ h.fresh o ho)
    have hknown := h.entry o x ho hx (ht.trans htoken)
    have hremoving : o.removing = false := by
      cases t with
      | rehomeOld => cases ho; rfl
      | rehomeCurrent => cases ho; rfl
      | await call after =>
        cases after with
        | rehomeDetach => cases ho; rfl
        | _ => cases hu
      | _ => cases hu
    exact hf.live _ _ hx' (htoken ▸ h.fresh o ho) (by rw [← hr, hknown.1, hremoving])
      (h.live o u x ho hu hx (ht.trans htoken))

namespace Follows
variable {r r' : Registry} {id : String}

theorem refl (r : Registry) : Follows r r :=
  ⟨le_rfl, fun _ x hx _ => ⟨x, hx, rfl, rfl, rfl⟩, fun _ _ _ _ _ h => h⟩

theorem congr (htokens : r'.tokens = r.tokens) (hfailing : r'.failing = r.failing)
    (htriggers : r'.triggers = r.triggers) : Follows r r' :=
  ⟨htokens.ge, fun _ x hx _ => ⟨x, hfailing ▸ hx, rfl, rfl, rfl⟩, fun _ _ _ _ _ h => htriggers ▸ h⟩

/-- One entry goes, and only its binding is touched. -/
theorem drop (htokens : r'.tokens = r.tokens) (hfailing : r'.failing = Function.update r.failing id none)
    (htriggers : ∀ j, j ≠ id → r'.triggers j = r.triggers j) : Follows r r' := by
  have hentry (j : String) : r'.failing j = if j = id then none else r.failing j := by
    rw [hfailing, Function.update_apply]
  clear hfailing
  constructor <;> grind -ring -linarith

theorem beginTransition (r : Registry) (t : Trigger) (removing : Bool) :
    Follows r (r.beginTransition t removing) := by
  constructor <;> dsimp only [Registry.beginTransition] <;> grind -ring -linarith [Function.update_apply]

theorem trans {r'' : Registry} (h : Follows r r') (h' : Follows r' r'') : Follows r r'' := by
  obtain ⟨h1, h2, h3⟩ := h
  obtain ⟨h1', h2', h3'⟩ := h'
  refine ⟨h1.trans h1', fun id x'' hx'' hle => ?_, fun id x'' hx'' hle hr ht => ?_⟩
  · obtain ⟨x', hx', ht', hr', ha'⟩ := h2' id x'' hx'' (hle.trans h1)
    obtain ⟨x, hx, ht, hr, ha⟩ := h2 id x' hx' (ht' ▸ hle)
    exact ⟨x, hx, ht.trans ht', hr.trans hr', ha.trans ha'⟩
  · obtain ⟨x', hx', ht', hr', -⟩ := h2' id x'' hx'' (hle.trans h1)
    exact h3' id x'' hx'' (hle.trans h1) hr (h3 id x' hx' (ht' ▸ hle) (hr'.trans hr) ht)

theorem claimOrphans (orphans : List Trigger) (r : Registry) : Follows r (r.claimOrphans orphans).1 := by
  induction orphans generalizing r with
  | nil => exact refl r
  | cons t orphans ih => exact (beginTransition r t false).trans (ih _)

theorem forgetWorker (r : Registry) (w : Worker) : Follows r (r.forgetWorker w) := by
  constructor <;> dsimp only [Registry.forgetWorker] <;> grind -ring -linarith [Option.filter_eq_some_iff]

theorem retarget {x : Transition} {u : Trigger} (hx : r.failing id = some x)
    (hu : x.target.asked = u.asked) :
    Follows r { r with failing := Function.update r.failing id (some { x with target := u }) } := by
  constructor <;> grind -ring -linarith [Function.update_apply]

theorem reject (r : Registry) (id : String) (t : Trigger) :
    Follows r (((if r.isRemoving id then r else r.interruptFailover id).dropTrigger id).setPending t) := by
  split
  · constructor <;> dsimp only [Registry.dropTrigger, Registry.setPending] <;>
      grind -ring -linarith [Function.update_apply, Registry.isRemoving]
  · exact drop rfl rfl fun j hj => Function.update_of_ne hj _ _

theorem recoverActivation (r : Registry) (id : String) (token : Nat) (moved : Bool) :
    Follows r (r.recoverActivation id token moved) := by
  unfold Registry.recoverActivation
  split
  · exact refl r
  · split
    · exact refl r
    · cases moved
      · exact drop rfl rfl fun j hj => Function.update_of_ne hj _ _
      · simp only [if_true]
        split
        · exact drop rfl rfl fun j hj => rfl
        · exact drop rfl rfl fun j hj => rfl

theorem recoverRemoval (r : Registry) (id : String) (token gen : Nat) :
    Follows r (r.recoverRemoval id token gen).1 := by
  have hinterrupt : Follows r (r.interruptFailover id) := drop rfl rfl fun j hj => rfl
  unfold Registry.recoverRemoval
  split
  · exact refl r
  · split
    · exact hinterrupt
    · dsimp only
      split
      · exact hinterrupt
      · split
        · exact hinterrupt
        · have hdrop : Follows r ((r.interruptFailover id).dropPending id) :=
            drop rfl rfl fun j hj => rfl
          exact hdrop.trans (beginTransition _ _ _)

end Follows

/-! ### Steps -/

/-- A task without a token knows nothing. -/
theorem Knows.none (h : t.operation = .none) : Knows r t := by
  constructor <;> simp [h]

/-- A token that was just taken. -/
theorem Knows.begun {target : Trigger} {removing : Bool}
    (h : t.operation = some ⟨target.id, r.tokens + 1, removing, target⟩)
    (hsource : ∀ u, t.source = some u → u.id = target.id ∧ r.triggers target.id ≠ .none) :
    Knows (r.beginTransition target removing) t := by
  have hentry (x : Transition) (hx : (r.beginTransition target removing).failing target.id = some x) :
      x = { token := r.tokens + 1, worker := target.worker, removing, target } := by
    simp only [Registry.beginTransition, Function.update_self] at hx
    exact (Option.some.inj hx).symm
  constructor
  · intro o ho
    obtain rfl := Option.some.inj (h.symm.trans ho)
    exact le_rfl
  · intro o x ho hx _
    obtain rfl := Option.some.inj (h.symm.trans ho)
    obtain rfl := hentry x hx
    exact ⟨rfl, fun _ => rfl⟩
  · intro o u ho hu
    obtain rfl := Option.some.inj (h.symm.trans ho)
    exact (hsource u hu).1
  · intro o u x ho hu _ _
    obtain rfl := Option.some.inj (h.symm.trans ho)
    exact (hsource u hu).2

/-- A task that goes on with the token of another. -/
theorem Knows.goesOn {u : Task} (h : Knows r t) (hf : Follows r r')
    (ho : ∀ o, u.operation = some o → ∃ o', t.operation = some o' ∧ o'.id = o.id ∧ o'.token = o.token ∧
      o'.removing = o.removing ∧ o'.trigger.asked = o.trigger.asked)
    (hs : ∀ s, u.source = some s → t.source = some s) : Knows r' u := by
  have h' := h.follows hf
  constructor
  · intro o hu
    obtain ⟨o', ht, -, htoken, -⟩ := ho o hu
    exact htoken ▸ h'.fresh o' ht
  · intro o x hu hx htok
    obtain ⟨o', ht, hid, htoken, hr, ha⟩ := ho o hu
    rw [← hr, ← ha]
    exact h'.entry o' x ht (hid ▸ hx) (htok.trans htoken.symm)
  · intro o s hu hsrc
    obtain ⟨o', ht, hid, -⟩ := ho o hu
    exact hid ▸ h'.sourceId o' s ht (hs s hsrc)
  · intro o s x hu hsrc hx htok
    obtain ⟨o', ht, hid, htoken, -⟩ := ho o hu
    rw [← hid] at hx ⊢
    exact h'.live o' s x ht (hs s hsrc) hx (htok.trans htoken.symm)

/-- What a step leaves. -/
def Leaves (r r' : Registry) (news : List Task) : Prop :=
  Sound r' ∧ Follows r r' ∧ ∀ u ∈ news, Knows r' u

theorem isCurrent_iff {id : String} {token : Nat} :
    r.isCurrent id token = true ↔ ∃ x, r.failing id = some x ∧ x.token = token := by
  unfold Registry.isCurrent
  cases r.failing id <;> simp

/-- A step that reads, and leaves tasks without tokens. -/
theorem Leaves.reads {r : Registry} {news : List Task} (h : Sound r)
    (hn : ∀ u ∈ news, u.operation = none) : Leaves r r news :=
  ⟨h, .refl r, fun u hu => .none (hn u hu)⟩

/-- Points that only look something up. -/
def Task.looks : Task → Bool
  | .resolveHome .. | .resolveFallback .. | .lookProvider .. | .detach .. | .replayAll ..
  | .claimBack .. | .leaveLook .. | .leaveCheck .. | .rejectLook .. | .reconcile .. => true
  | _ => false

theorem go_looks (ht : t.looks = true) (hgo : r.go t = some (r', news)) :
    r' = r ∧ ∀ u ∈ news, u.operation = none := by
  have hunresolved (t : Trigger) (again : Bool) : ∀ u ∈ Registry.unresolved t again, u.operation = none := by
    cases again <;> simp [Registry.unresolved, Task.operation]
  cases t with
  | resolveHome t again =>
    simp only [Registry.go] at hgo
    split at hgo <;> split at hgo <;> cases hgo
    all_goals first | exact ⟨rfl, hunresolved _ _⟩ | exact ⟨rfl, by simp [Task.operation]⟩
  | resolveFallback t again =>
    simp only [Registry.go] at hgo
    split at hgo <;> cases hgo
    all_goals first | exact ⟨rfl, hunresolved _ _⟩ | exact ⟨rfl, by simp [Task.operation]⟩
  | lookProvider t again =>
    simp only [Registry.go] at hgo
    split at hgo
    · cases hgo
      exact ⟨rfl, hunresolved _ _⟩
    · split at hgo <;> cases hgo
      all_goals exact ⟨rfl, by simp [Task.operation]⟩
  | detach t live =>
    simp only [Registry.go] at hgo
    split at hgo <;> cases hgo
    all_goals exact ⟨rfl, by simp [Task.operation]⟩
  | replayAll key matching =>
    simp only [Registry.go] at hgo
    split at hgo <;> cases hgo
    · refine ⟨rfl, ?_⟩
      simp only [List.mem_append, List.mem_map, List.mem_cons, List.not_mem_nil, or_false]
      rintro u (⟨t, -, rfl⟩ | rfl | rfl) <;> rfl
    · exact ⟨rfl, by simp [Task.operation]⟩
  | claimBack key =>
    simp only [Registry.go] at hgo
    split at hgo
    · cases hgo
      exact ⟨rfl, by simp⟩
    · split at hgo <;> cases hgo
      all_goals exact ⟨rfl, by simp [Task.operation]⟩
  | leaveLook t w ids keys =>
    simp only [Registry.go] at hgo
    split at hgo <;> cases hgo
    all_goals exact ⟨rfl, by simp [Task.operation]⟩
  | leaveCheck t gen w ids keys =>
    simp only [Registry.go] at hgo
    split at hgo <;> cases hgo
    all_goals exact ⟨rfl, by simp [Task.operation]⟩
  | rejectLook id key reporter =>
    simp only [Registry.go] at hgo
    split at hgo
    · split at hgo <;> cases hgo
      all_goals exact ⟨rfl, by simp [Task.operation]⟩
    · cases hgo
      exact ⟨rfl, by simp⟩
  | reconcile stale touched =>
    simp only [Registry.go] at hgo
    split at hgo
    · split at hgo <;> cases hgo
      all_goals exact ⟨rfl, by simp [Task.operation]⟩
    · cases hgo
      exact ⟨rfl, by simp [Task.operation]⟩
  | _ => cases ht

/-- An operation that goes on with its token and writes nothing. -/
theorem Leaves.goesOn (h : Sound r) (hk : Knows r t)
    (hn : ∀ u ∈ news, (∀ o, u.operation = some o → ∃ o', t.operation = some o' ∧ o'.id = o.id ∧
      o'.token = o.token ∧ o'.removing = o.removing ∧ o'.trigger.asked = o.trigger.asked) ∧
      ∀ s, u.source = some s → t.source = some s) : Leaves r r news :=
  ⟨h, .refl r, fun u hu => hk.goesOn (.refl r) (hn u hu).1 (hn u hu).2⟩

theorem go_leaves (h : Sound r) (hk : Knows r t) (hgo : r.go t = some (r', news)) : Leaves r r' news := by
  by_cases hlooks : t.looks = true
  · obtain ⟨rfl, hnews⟩ := go_looks hlooks hgo
    exact .reads h hnews
  cases t with
  | park t =>
    simp only [Registry.go] at hgo
    have hpark : Follows r (r.park t) := .drop rfl rfl fun j hj => Function.update_of_ne hj _ _
    split at hgo <;> cases hgo
    all_goals exact ⟨h.park t, hpark, fun u hu => .none (by simp_all [Task.operation])⟩
  | claim id key gen =>
    simp only [Registry.go] at hgo
    split at hgo
    · cases hgo
      exact .reads h (by simp)
    · rename_i r'' t hclaim
      cases hgo
      have hsound := h.claimParked hclaim
      unfold Registry.claimParked at hclaim
      split at hclaim
      · cases hclaim
      · obtain ⟨parked, -, hr⟩ := Option.map_eq_some_iff.mp hclaim
        cases hr
        have hdrop : Follows r (r.dropPending id) := .congr rfl rfl rfl
        refine ⟨hsound, hdrop.trans (.beginTransition _ _ _), fun u hu => ?_⟩
        obtain rfl := List.mem_singleton.mp hu
        exact .begun rfl fun u hu => by cases hu
  | registerType key w =>
    simp only [Registry.go] at hgo
    cases hgo
    exact ⟨h.congr rfl rfl rfl rfl rfl, .congr rfl rfl rfl, fun u hu => .none (by simp_all [Task.operation])⟩
  | rehome id key gen =>
    simp only [Registry.go] at hgo
    split at hgo
    · cases hgo
      exact .reads h (by simp)
    · rename_i current hcurrent
      split at hgo <;> cases hgo
      · refine ⟨h.beginMove hcurrent key.1, .beginTransition _ _ _, fun u hu => ?_⟩
        obtain rfl := List.mem_singleton.mp hu
        refine .begun rfl fun u hu => ?_
        cases hu
        refine ⟨rfl, ?_⟩
        rw [id_served, h.triggerId id current hcurrent, hcurrent]
        exact Option.some_ne_none _
      · exact .reads h (by simp)
  | rehomeOld source target token gen =>
    simp only [Registry.go] at hgo
    split at hgo <;> cases hgo
    · refine .goesOn h hk fun u hu => ?_
      obtain rfl := List.mem_singleton.mp hu
      exact ⟨fun o ho => ⟨o, ho, rfl, rfl, rfl, rfl⟩, fun s hs => hs⟩
    · refine .goesOn h hk fun u hu => ?_
      obtain rfl := List.mem_singleton.mp hu
      exact ⟨fun o ho => ⟨o, ho, rfl, rfl, rfl, rfl⟩, fun s hs => by cases hs⟩
  | rehomeCurrent source target token gen old =>
    simp only [Registry.go] at hgo
    split at hgo <;> cases hgo
    · refine .goesOn h hk fun u hu => ?_
      obtain rfl := List.mem_singleton.mp hu
      exact ⟨fun o ho => ⟨o, ho, rfl, rfl, rfl, rfl⟩, fun s hs => by cases hs⟩
    · exact .reads h (by simp [Task.operation])
  | failOver t token =>
    simp only [Registry.go] at hgo
    split at hgo
    · cases hgo
      exact .reads h (by simp)
    · rename_i hcurrent
      split at hgo
      · cases hgo
        exact .reads h (by simp)
      · rename_i x hx
        obtain ⟨x', hx', htoken⟩ := isCurrent_iff.mp (by simpa using hcurrent)
        obtain rfl := Option.some.inj (hx.symm.trans hx')
        obtain ⟨hremoving, hasked⟩ := hk.entry _ x rfl hx htoken
        have hasked := hasked hremoving
        have hworker : t.worker = x.worker := by
          rw [h.worker _ _ hx, ← worker_asked x.target, hasked, worker_asked]
        have hgoesOn (u : Trigger) (hu : u.asked = t.asked) (hid : u.id = t.id) (next : Task)
            (hnext : next.operation = some ⟨u.id, token, false, u⟩) (hsource : next.source = none)
            (hw : u.worker = t.worker) :
            Leaves r { r with failing := Function.update r.failing t.id (some { x with target := u }) } [next] := by
          have hfollows := Follows.retarget hx (hasked.trans hu.symm)
          refine ⟨h.retarget hx (hu.trans hasked.symm) hid (hw.trans hworker), hfollows, fun v hv => ?_⟩
          obtain rfl := List.mem_singleton.mp hv
          refine hk.goesOn hfollows (fun o ho => ?_) (fun s hs => by rw [hsource] at hs; cases hs)
          obtain rfl := Option.some.inj (hnext.symm.trans ho)
          exact ⟨_, rfl, hid.symm, rfl, rfl, hu.symm⟩
        split at hgo <;> cases hgo
        · rename_i next hnext
          exact hgoesOn (t.served next.1) rfl rfl (.failOverLook _ token) rfl rfl rfl
        · exact hgoesOn _ rfl rfl (.failOverPark _ token) rfl rfl rfl
  | failOverLook t token =>
    simp only [Registry.go] at hgo
    split at hgo <;> cases hgo
    all_goals
      refine .goesOn h hk fun u hu => ?_
      obtain rfl := List.mem_singleton.mp hu
      exact ⟨fun o ho => ⟨o, ho, rfl, rfl, rfl, rfl⟩, fun s hs => by cases hs⟩
  | failOverPark t token =>
    simp only [Registry.go] at hgo
    split at hgo <;> cases hgo
    · rename_i hcurrent
      obtain ⟨x, hx, htoken⟩ := isCurrent_iff.mp hcurrent
      obtain ⟨hremoving, hasked⟩ := hk.entry _ x rfl hx htoken
      exact ⟨h.settleParked hx hremoving (hasked hremoving),
        .drop rfl rfl fun j hj => Function.update_of_ne hj _ _, by simp⟩
    · exact .reads h (by simp)
  | unregister id =>
    simp only [Registry.go] at hgo
    split at hgo <;> cases hgo
    · exact ⟨h.removeParked id _, .drop rfl rfl fun j hj => rfl, by simp⟩
    · rename_i t ht
      refine ⟨h.beginRemoval ht, .beginTransition _ _ _, fun u hu => ?_⟩
      obtain rfl := List.mem_singleton.mp hu
      exact .begun rfl fun u hu => by cases hu
  | removeLook t token edition =>
    simp only [Registry.go] at hgo
    split at hgo <;> cases hgo
    all_goals
      refine .goesOn h hk fun u hu => ?_
      obtain rfl := List.mem_singleton.mp hu
      exact ⟨fun o ho => ⟨o, ho, rfl, rfl, rfl, rfl⟩, fun s hs => by cases hs⟩
  | removeDone t token edition =>
    simp only [Registry.go] at hgo
    split at hgo <;> cases hgo
    · exact ⟨h.remove t.id edition, .drop rfl rfl fun j hj => Function.update_of_ne hj _ _, by simp⟩
    · exact ⟨h.noteUnregistered t.id edition, .congr rfl rfl rfl, by simp⟩
  | leave w =>
    simp only [Registry.go] at hgo
    cases hgo
    exact ⟨h.forgetWorker w, .forgetWorker r w, fun u hu => .none (by simp_all [Task.operation])⟩
  | leaveLoop w ids keys =>
    cases ids with
    | nil =>
      simp only [Registry.go] at hgo
      cases hgo
      exact .reads h (by simp [Task.operation])
    | cons id ids =>
      simp only [Registry.go] at hgo
      split at hgo
      · rename_i t ht
        split at hgo <;> cases hgo
        · rename_i hw
          exact ⟨h.dropOwned ht hw, .drop rfl rfl fun j hj => Function.update_of_ne hj _ _,
            fun u hu => .none (by simp_all [Task.operation])⟩
        · exact .reads h (by simp [Task.operation])
      · cases hgo
        exact .reads h (by simp [Task.operation])
  | leaveRest w keys =>
    simp only [Registry.go] at hgo
    cases hgo
    exact ⟨h.forgetPending w, .congr rfl rfl rfl, fun u hu => .none (by simp_all [Task.operation])⟩
  | leaveKeys w keys =>
    cases keys with
    | nil =>
      simp only [Registry.go] at hgo
      cases hgo
      exact .reads h (by simp)
    | cons key keys => simp only [Registry.go] at hgo; cases hgo
  | reject id reporter =>
    simp only [Registry.go] at hgo
    split at hgo <;> cases hgo
    · exact .reads h (by simp)
    · rename_i t ht
      exact ⟨h.reject ht, .reject r id t, fun u hu => .none (by simp_all [Task.operation])⟩
  | matching key => simp only [Registry.go] at hgo; cases hgo
  | drain key gen => simp only [Registry.go] at hgo; cases hgo
  | scan key gen => simp only [Registry.go] at hgo; cases hgo
  | takeType key w => simp only [Registry.go] at hgo; cases hgo
  | leaveTypes w => simp only [Registry.go] at hgo; cases hgo
  | leaveIds w keys => simp only [Registry.go] at hgo; cases hgo
  | await call after => simp only [Registry.go] at hgo; cases hgo
  | _ => exact absurd rfl hlooks

theorem recoverRemoval_leaves {id : String} {token gen : Nat} (h : Sound r)
    (hx : ∀ x, r.failing id = some x → x.token = token → x.removing = true) :
    Leaves r (r.recoverRemoval id token gen).1 (r.recoverRemoval id token gen).2 := by
  refine ⟨h.recoverRemoval id token gen hx, .recoverRemoval r id token gen, ?_⟩
  unfold Registry.recoverRemoval
  split
  · simp
  · split
    · simp
    · dsimp only
      split
      · simp
      · rename_i t ht
        split
        · exact fun u hu => .none (by simp_all [Task.operation])
        · intro u hu
          obtain rfl := List.mem_singleton.mp hu
          exact .begun rfl fun u hu => by cases hu

theorem answer_leaves {call : Call} {after : After} (a : Answer) (h : Sound r)
    (hk : Knows r (.await call after)) : Leaves r (r.answer call a after).1 (r.answer call a after).2 := by
  cases after with
  | register =>
    cases a with
    | ok => exact ⟨h.publish _, .drop rfl rfl fun j hj => Function.update_of_ne hj _ _, by simp [Registry.answer]⟩
    | rejected => exact .reads h (by simp [Registry.answer])
    | unavailable => exact ⟨h.park _, .drop rfl rfl fun j hj => Function.update_of_ne hj _ _, by simp [Registry.answer]⟩
  | detach t => exact .reads h (by simp [Registry.answer, Task.operation])
  | replay => exact .reads h (by simp [Registry.answer])
  | leave w ids keys => exact .reads h (by simp [Registry.answer, Task.operation])
  | reconcile stale before =>
    simp only [Registry.answer]
    split
    · exact .reads h (by simp)
    · split
      · split
        · exact .reads h (by simp)
        · exact .reads h (by simp [Task.operation])
      · split
        · exact .reads h (by simp [Task.operation])
        · exact .reads h (by simp)
  | activate token =>
    simp only [Registry.answer]
    cases hcurrent : r.isCurrent call.trigger.id token with
    | false => exact .reads h (by simp [Task.operation])
    | true =>
      obtain ⟨x, hx, htoken⟩ := isCurrent_iff.mp hcurrent
      obtain ⟨hremoving, hasked⟩ := hk.entry _ x rfl hx htoken
      have hnone := h.free _ _ hx hremoving
      cases htriggers : r.triggers call.trigger.id with
      | some live =>
        refine ⟨h.interrupt (.inl (by simp [htriggers])), .drop rfl rfl fun j hj => rfl, ?_⟩
        exact fun u hu => .none (by simp_all [Task.operation])
      | none =>
        cases a with
        | ok =>
          simp only [hnone]
          exact ⟨h.settleLive hx hremoving (hasked hremoving),
            .drop rfl rfl fun j hj => Function.update_of_ne hj _ _, by simp⟩
        | _ =>
          simp only [hnone]
          have hsettle := h.settleParked hx hremoving (hasked hremoving)
          have hsame : (r.interruptFailover call.trigger.id).dropTrigger call.trigger.id =
              r.interruptFailover call.trigger.id := by
            simp only [Registry.dropTrigger, Registry.interruptFailover, ← htriggers, Function.update_eq_self]
          rw [hsame] at hsettle
          exact ⟨hsettle, .drop rfl rfl fun j hj => rfl, fun u hu => .none (by simp_all [Task.operation])⟩
  | rehomeDetach target token gen =>
    cases a with
    | ok =>
      refine .goesOn h hk fun u hu => ?_
      obtain rfl := List.mem_singleton.mp hu
      exact ⟨fun o ho => ⟨o, ho, rfl, rfl, rfl, rfl⟩, fun s hs => hs⟩
    | _ =>
      have hid : call.trigger.id = target.id := hk.sourceId _ _ rfl rfl
      simp only [Registry.answer, hid]
      split
      · rename_i hcurrent
        obtain ⟨x, hx, htoken⟩ := isCurrent_iff.mp hcurrent
        have hlive := hk.live _ _ x rfl rfl hx htoken
        refine ⟨h.interrupt (.inl (Option.isSome_iff_ne_none.mpr hlive)), .drop rfl rfl fun j hj => rfl, ?_⟩
        simp only [List.mem_cons, List.not_mem_nil, or_false]
        rintro u (rfl | rfl) <;> exact .none rfl
      · exact .reads h (by simp [Task.operation])
  | rehome source token old =>
    simp only [Registry.answer]
    split
    · rename_i hcurrent
      obtain ⟨x, hx, htoken⟩ := isCurrent_iff.mp hcurrent
      obtain ⟨hremoving, hasked⟩ := hk.entry _ x rfl hx htoken
      cases a with
      | ok => exact ⟨h.settleLive hx hremoving (hasked hremoving),
          .drop rfl rfl fun j hj => Function.update_of_ne hj _ _, by simp⟩
      | _ => exact ⟨h.settleParked hx hremoving (hasked hremoving),
          .drop rfl rfl fun j hj => Function.update_of_ne hj _ _,
          fun u hu => .none (by simp_all [Task.operation])⟩
    · exact .reads h (by cases old <;> simp [Task.operation])
  | failOver token =>
    simp only [Registry.answer]
    split
    · rename_i hcurrent
      obtain ⟨x, hx, htoken⟩ := isCurrent_iff.mp hcurrent
      obtain ⟨hremoving, hasked⟩ := hk.entry _ x rfl hx htoken
      cases a with
      | ok =>
        refine ⟨h.settleLive hx hremoving (hasked hremoving),
          .drop rfl rfl fun j hj => Function.update_of_ne hj _ _, fun u hu => .none ?_⟩
        dsimp only at hu
        split at hu
        · obtain rfl := List.mem_singleton.mp hu
          rfl
        · cases hu
      | _ => exact ⟨h.settleParked hx hremoving (hasked hremoving),
          .drop rfl rfl fun j hj => Function.update_of_ne hj _ _,
          fun u hu => .none (by simp_all [Task.operation])⟩
    · exact .reads h (by simp [Task.operation])
  | remove token edition =>
    cases a with
    | ok =>
      simp only [Registry.answer]
      split
      · exact ⟨h.remove _ edition, .drop rfl rfl fun j hj => Function.update_of_ne hj _ _, by simp⟩
      · exact ⟨h.noteUnregistered _ edition, .congr rfl rfl rfl,
          fun u hu => .none (by simp_all [Task.operation])⟩
    | _ => exact recoverRemoval_leaves h fun x hx htoken => (hk.entry _ x rfl hx htoken).1

theorem abandon_leaves {call : Call} {after : After} (h : Sound r) (hk : Knows r (.await call after)) :
    Leaves r (r.abandon call after).1 (r.abandon call after).2 := by
  have hactivation (id : String) (token : Nat) (moved : Bool) (news : List Task)
      (hx : ∀ x, r.failing id = some x → x.token = token → x.removing = false)
      (hn : ∀ u ∈ news, u.operation = none) : Leaves r (r.recoverActivation id token moved) news :=
    ⟨h.recoverActivation id token moved hx, .recoverActivation r id token moved, fun u hu => .none (hn u hu)⟩
  cases after with
  | activate token =>
    exact hactivation _ _ _ _ (fun x hx ht => (hk.entry _ x rfl hx ht).1)
      (by simp [Registry.abandon, Task.operation])
  | failOver token =>
    exact hactivation _ _ _ _ (fun x hx ht => (hk.entry _ x rfl hx ht).1)
      (by simp [Registry.abandon, Task.operation])
  | rehomeDetach target token gen =>
    exact hactivation _ _ _ _ (fun x hx ht => (hk.entry _ x rfl hx ht).1)
      (by simp [Registry.abandon, Task.operation])
  | rehome source token old =>
    exact hactivation _ _ _ _ (fun x hx ht => (hk.entry _ x rfl hx ht).1)
      (by cases old <;> simp [Registry.abandon, Task.operation])
  | remove token edition => exact recoverRemoval_leaves h fun x hx ht => (hk.entry _ x rfl hx ht).1
  | _ => exact .reads h (by simp [Registry.abandon])

theorem takes_leaves {key : TypeKey} {w : Worker} (h : Sound r) (ht : Takes r key w r' news) :
    Leaves r r' news := by
  cases ht with
  | other _ => exact .reads h (by simp)
  | own orphans hp hw horphans hnodup =>
    have hsound : Sound { r with types := Function.update r.types key none } := h.congr rfl rfl rfl rfl rfl
    have hfollows : Follows r { r with types := Function.update r.types key none } := .congr rfl rfl rfl
    refine ⟨hsound.claimOrphans orphans fun t ht => ((horphans t).mp ht).1,
      hfollows.trans (.claimOrphans orphans _), ?_⟩
    generalize ({ r with types := Function.update r.types key none } : Registry) = r₁
    clear hsound hfollows horphans
    -- each claim knows its token, and the later ones leave it alone
    induction orphans generalizing r₁ with
    | nil => simp [Registry.claimOrphans]
    | cons t orphans ih =>
      intro u hu
      rcases List.mem_cons.mp hu with rfl | hu
      · have hbegun : Knows (r₁.beginTransition t false) (.failOver t (r₁.tokens + 1)) :=
          .begun rfl fun u hu => by cases hu
        exact hbegun.follows (.claimOrphans orphans _)
      · exact ih (List.nodup_cons.mp hnodup).2 _ u hu

theorem exec_leaves {a : Act} (h : Sound r) (hk : Knows r t) (he : Exec r t a r' news) : Leaves r r' news := by
  cases he with
  | go hgo => exact go_leaves h hk hgo
  | snapshot hs =>
    cases hs with
    | drain key gen ids _ => exact .reads h (by simp [Task.operation])
    | scan key gen ids _ => exact .reads h (by simp [Task.operation])
    | _ => exact .reads h (by simp [Task.operation])
  | takeType ht => exact takes_leaves h ht
  | leaveKeys ht =>
    obtain ⟨hsound, hfollows, hnews⟩ := takes_leaves h ht
    refine ⟨hsound, hfollows, fun u hu => ?_⟩
    rcases List.mem_append.mp hu with hu | hu
    · exact hnews u hu
    · exact .none (by simp_all [Task.operation])
  | @taken call after htaken =>
    refine ⟨h.congr rfl rfl rfl rfl rfl, .congr rfl rfl rfl, fun u hu => ?_⟩
    obtain rfl := List.mem_singleton.mp hu
    refine hk.goesOn (.congr rfl rfl rfl) (fun o ho => ⟨o, ?_, rfl, rfl, rfl, rfl⟩) fun s hs => ?_
    · cases after <;> exact ho
    · cases after <;> exact hs
  | answer a hok => exact answer_leaves a h hk
  | recheck htaken => exact .reads h (by simp [Task.operation])
  | cancel hafter => exact abandon_leaves h hk
  | dropped hd => exact .reads h (by simp)

/-! ### Every run -/

theorem kept : pool.Kept Sound Knows where
  start := fun {s t} _ ht => by
    apply Knows.none
    cases t <;> first | rfl | cases ht
  exec := fun h hk he => ⟨(exec_leaves h hk he).1, (exec_leaves h hk he).2.2⟩
  stable := fun h hk hu he => hu.follows (exec_leaves h hk he).2.1

/-- The task whose token is the one in flight for `id`. -/
def Holds (r : Registry) (t : Task) (id : String) : Prop :=
  ∃ o x, t.operation = some o ∧ o.id = id ∧ r.failing id = some x ∧ x.token = o.token

end Iii.Bindings
