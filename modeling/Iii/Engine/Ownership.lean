import Iii.Engine.Functions

/-! Function owners, handlers and connections agree.

One lemma says what a connection may do to one id of the two maps (`Inv.change`) and one
what it may do by itself (`Inv.setConn`); every section is one of the two. -/
namespace Iii.Engine.Functions
open Lib

/-! ### The invariant -/

/-- Teardown has yet to come to the id. -/
def Pending (c : Connection) (f : String) : Prop :=
  match c.phase with
  | .connected => Believes c f
  | .snapshotting => f ∈ c.functionIds ∨ f ∈ c.externalFunctionIds
  | .snapshotted regular => f ∈ regular ∨ f ∈ c.externalFunctionIds
  | .releasing regular external => f ∈ regular ∨ f ∈ external
  | .absent | .released | .gone => False

/-- What a connection is like by itself. -/
structure Orderly (c : Connection) : Prop where
  torn : c.phase ≠ .connected → c.dispatch = none
  kinds : ∀ f, f ∈ c.functionIds → f ∉ c.externalFunctionIds
  includingRegular : ∀ f, c.dispatch = some (.including f .regular) → f ∉ c.externalFunctionIds
  includingExternal : ∀ f, c.dispatch = some (.including f .external) ∨ validating c.dispatch = some f →
    f ∉ c.functionIds
  dropping : ∀ f kind, c.dispatch = some (.dropping f kind) → (kind = .external ↔ f ∈ c.externalFunctionIds)
  absent : c.phase = .absent → c.functionIds = [] ∧ c.externalFunctionIds = []

structure Inv (st : State) : Prop where
  orderly : ∀ w, Orderly (st.conn w)
  held : ∀ w f, (st.conn w).phase = .connected → Believes (st.conn w) f → ∃ kind, st.owners f = some (w, kind)
  owned : ∀ w kind f, st.owners f = some (w, kind) → Pending (st.conn w) f
  served : ∀ w kind f, st.owners f = some (w, kind) → validating (st.conn w).dispatch = some f ∨
    ∃ n, st.functions f = some (.written w n)
  written : ∀ w n f, st.functions f = some (.written w n) →
    (∃ kind, st.owners f = some (w, kind)) ∧ (st.conn w).latest f = some n
  listed : ∀ w f, (st.conn w).phase = .connected → f ∈ (st.conn w).functionIds ∨ f ∈ (st.conn w).externalFunctionIds →
    ∃ n, st.functions f = some (.written w n)

theorem Inv.agree {st : State} (inv : Inv st) : Agree st := by
  have hserves : ∀ w f, WrittenBy st f w → Serves st w f := by
    rintro w f ⟨n, hn⟩
    obtain ⟨howner, hlatest⟩ := inv.written w n f hn
    exact ⟨howner, n, hn, hlatest⟩
  have howns : ∀ w f kind, st.owners f = some (w, kind) → validating (st.conn w).dispatch ≠ some f →
      Serves st w f := by
    intro w f kind howner hvalidating
    exact hserves w f ((inv.served w kind f howner).resolve_left hvalidating)
  constructor
  case oneOwner =>
    intro w w' f hw hw' hf hf'
    obtain ⟨kind, howner⟩ := inv.held w f hw hf
    obtain ⟨kind', howner'⟩ := inv.held w' f hw' hf'
    cases howner.symm.trans howner'
    rfl
  case quiet =>
    intro hquiet w f
    refine ⟨⟨hserves w f, fun h => ?_⟩, ⟨fun h => h.1, ?_⟩⟩
    · obtain ⟨-, n, hn, -⟩ := h
      exact ⟨n, hn⟩
    · rintro ⟨kind, howner⟩
      refine howns w f kind howner ?_
      simp [(hquiet w).1, validating]
  case cleaned =>
    intro w hw _ f
    have howner : ∀ kind, st.owners f ≠ some (w, kind) := by
      intro kind howner
      have hpending := inv.owned w kind f howner
      simp [Pending, hw] at hpending
    refine ⟨fun hwritten => ?_, howner⟩
    obtain ⟨⟨kind, hkind⟩, -⟩ := hserves w f hwritten
    exact howner kind hkind
  case intact =>
    intro w f hw hf hvalidating
    obtain ⟨kind, howner⟩ := inv.held w f hw hf
    exact howns w f kind howner hvalidating


namespace Inv
variable {st st' : State} {w : Nat} {f : String}

theorem booted (builtins : String → Bool) : Inv (State.booted builtins) := by
  have hfunctions : ∀ f w n, (State.booted builtins).functions f ≠ some (.written w n) := by
    intro f w n
    simp only [State.booted]
    split <;> simp
  constructor
  · intro w
    constructor <;> simp [State.booted, Connection.absent]
  · simp [State.booted, Connection.absent]
  · simp [State.booted]
  · simp [State.booted]
  · exact fun w n f h => absurd h (hfunctions f w n)
  · simp [State.booted, Connection.absent]

/-- A connection that moves on without touching the two maps. -/
theorem setConn (inv : Inv st) {c : Connection} (horderly : Orderly c)
    (hphase : c.phase = .connected → (st.conn w).phase = .connected ∨ ∀ f, ¬ Believes c f)
    (hbelieves : ∀ f, Believes c f → Believes (st.conn w) f)
    (hlisted : ∀ f, f ∈ c.functionIds ∨ f ∈ c.externalFunctionIds → validating (st.conn w).dispatch ≠ some f)
    (hpending : ∀ f kind, st.owners f = some (w, kind) → Pending (st.conn w) f → Pending c f)
    (hvalidating : validating c.dispatch = validating (st.conn w).dispatch)
    (hlatest : c.latest = (st.conn w).latest) : Inv (st.setConn w c) := by
  obtain ⟨orderly, held, owned, served, written, listed⟩ := inv
  constructor <;> dsimp only [State.setConn]
  · grind -ring -linarith [Function.update_apply]
  · grind -ring -linarith [Function.update_apply]
  · grind -ring -linarith [Function.update_apply]
  · grind -ring -linarith [Function.update_apply]
  · grind -ring -linarith [Function.update_apply]
  · intro w' f hw' hf
    by_cases hw : w' = w
    · subst hw
      simp only [Function.update_self] at hw' hf
      have hbelieved : Believes c f := by
        obtain hf | hf := hf
        · exact .inl hf
        · exact .inr (.inl hf)
      obtain hconnected | hnot := hphase hw'
      · obtain ⟨kind, howner⟩ := held w' f hconnected (hbelieves f hbelieved)
        exact (served w' kind f howner).resolve_left (hlisted f hf)
      · exact absurd hbelieved (hnot f)
    · simp only [Function.update_of_ne hw] at hw' hf
      exact listed w' f hw' hf

/-- The dispatch holds no claim before and after. -/
theorem setDispatch (inv : Inv st) {d : Option Dispatch} (hconnected : (st.conn w).phase = .connected)
    (hold : claimed (st.conn w).dispatch = none) (hnew : claimed d = none)
    (hdrop : ∀ f kind, d = some (.dropping f kind) → (kind = .external ↔ f ∈ (st.conn w).externalFunctionIds)) :
    Inv (st.setDispatch w d) := by
  have horderly := inv.orderly w
  have hvalidating : ∀ d : Option Dispatch, claimed d = none → validating d = none := by
    rintro (_ | d) hd
    · rfl
    · cases d <;> simp_all [claimed, validating]
  refine inv.setConn ?_ ?_ ?_ ?_ ?_ ?_ rfl
  · obtain ⟨torn, kinds, includingRegular, includingExternal, dropping, absent⟩ := horderly
    refine ⟨?_, kinds, ?_, ?_, hdrop, absent⟩
    · exact fun h => absurd hconnected h
    · rintro f rfl
      simp [claimed] at hnew
    · rintro f (rfl | h)
      · simp [claimed] at hnew
      · rw [hvalidating d hnew] at h
        cases h
  · exact fun _ => .inl hconnected
  · intro f
    simp [Believes, hold, hnew]
  · intro f _
    rw [hvalidating _ hold]
    simp
  · intro f _ _
    simp [Pending, hconnected, Believes, hold, hnew]
  · rw [hvalidating d hnew, hvalidating _ hold]

/-- The claim of `w` on `f` takes nothing from a live connection. -/
theorem owner_of_unconflicted (hconflict : st.conflicts f w = false) {w' : Nat} {kind : InvocationKind}
    (howner : st.owners f = some (w', kind)) (hw : w' ≠ w) : (st.conn w').phase ≠ .connected := by
  intro hconnected
  simp [State.conflicts, howner, State.isLive, hconnected, hw] at hconflict

/-- What `w` may do to one id: become its owner, or leave it without one. Nothing is taken from
a live connection, and every entry the step leaves behind is accounted for. -/
theorem change (inv : Inv st) (c : Connection) (owner : Option (Nat × InvocationKind)) (entry : Option Entry)
    (horderly : Orderly c)
    (hothers : ∀ w' kind, st.owners f = some (w', kind) → w' ≠ w → (st.conn w').phase ≠ .connected)
    (howner : ∀ w' kind, owner = some (w', kind) → w' = w ∧ Pending c f ∧
      (validating c.dispatch = some f ∨ ∃ n, entry = some (.written w n)))
    (hentry : ∀ w' n, entry = some (.written w' n) → w' = w ∧ owner.isSome ∧ c.latest f = some n)
    (hbelieves : c.phase = .connected → ∀ f', Believes c f' →
      if f' = f then owner.isSome else (st.conn w).phase = .connected ∧ Believes (st.conn w) f')
    (hlisted : c.phase = .connected → ∀ f', f' ∈ c.functionIds ∨ f' ∈ c.externalFunctionIds →
      if f' = f then ∃ n, entry = some (.written w n)
      else f' ∈ (st.conn w).functionIds ∨ f' ∈ (st.conn w).externalFunctionIds)
    (hpending : ∀ f', f' ≠ f → Pending (st.conn w) f' → Pending c f')
    (hvalidating : ∀ f', f' ≠ f → validating (st.conn w).dispatch = some f' → validating c.dispatch = some f')
    (hlatest : ∀ f', f' ≠ f → c.latest f' = (st.conn w).latest f') :
    Inv { owners := Function.update st.owners f owner
          functions := Function.update st.functions f entry
          conn := Function.update st.conn w c } := by
  obtain ⟨orderly, held, owned, served, written, listed⟩ := inv
  have hsome : ∀ {x : Option (Nat × InvocationKind)}, x = owner → x.isSome = true → ∃ kind, x = some (w, kind) := by
    rintro (_ | ⟨w', kind⟩) hx h
    · cases h
    · exact ⟨kind, by rw [(howner w' kind hx.symm).1]⟩
  constructor <;> dsimp only
  · grind -ring -linarith [Function.update_apply]
  · intro w' f' hphase hf'
    by_cases hf : f' = f
    · subst hf
      rw [Function.update_self]
      by_cases hw : w' = w
      · subst hw
        rw [Function.update_self] at hphase hf'
        have := hbelieves hphase f' hf'
        rw [if_pos rfl] at this
        exact hsome rfl this
      · rw [Function.update_of_ne hw] at hphase hf'
        obtain ⟨kind, hkind⟩ := held w' f' hphase hf'
        exact absurd hphase (hothers w' kind hkind hw)
    · rw [Function.update_of_ne hf]
      by_cases hw : w' = w
      · subst hw
        rw [Function.update_self] at hphase hf'
        have := hbelieves hphase f' hf'
        rw [if_neg hf] at this
        exact held w' f' this.1 this.2
      · rw [Function.update_of_ne hw] at hphase hf'
        exact held w' f' hphase hf'
  · grind -ring -linarith [Function.update_apply]
  · intro w' kind f' hkind
    by_cases hf : f' = f
    · subst hf
      rw [Function.update_self] at hkind ⊢
      obtain ⟨rfl, -, hserved⟩ := howner w' kind hkind
      rwa [Function.update_self]
    · rw [Function.update_of_ne hf] at hkind ⊢
      obtain hv | hn := served w' kind f' hkind
      · left
        by_cases hw : w' = w
        · subst hw
          rw [Function.update_self]
          exact hvalidating f' hf hv
        · rwa [Function.update_of_ne hw]
      · exact .inr hn
  · intro w' n f' hn
    by_cases hf : f' = f
    · subst hf
      rw [Function.update_self] at hn ⊢
      obtain ⟨rfl, hisSome, hlatest'⟩ := hentry w' n hn
      rw [Function.update_self]
      exact ⟨hsome rfl hisSome, hlatest'⟩
    · rw [Function.update_of_ne hf] at hn ⊢
      obtain ⟨hkind, hlatest'⟩ := written w' n f' hn
      refine ⟨hkind, ?_⟩
      by_cases hw : w' = w
      · subst hw
        rw [Function.update_self, hlatest f' hf, hlatest']
      · rw [Function.update_of_ne hw, hlatest']
  · intro w' f' hphase hf'
    by_cases hw : w' = w
    · subst hw
      rw [Function.update_self] at hphase hf'
      have hkept := hlisted hphase f' hf'
      by_cases hf : f' = f
      · rw [if_pos hf] at hkept
        rwa [hf, Function.update_self]
      · rw [if_neg hf] at hkept
        rw [Function.update_of_ne hf]
        have hbelieved : Believes c f' := by
          obtain hf' | hf' := hf'
          · exact .inl hf'
          · exact .inr (.inl hf')
        have hconnected := hbelieves hphase f' hbelieved
        rw [if_neg hf] at hconnected
        exact listed w' f' hconnected.1 hkept
    · rw [Function.update_of_ne hw] at hphase hf'
      obtain ⟨n, hn⟩ := listed w' f' hphase hf'
      by_cases hf : f' = f
      · subst hf
        obtain ⟨⟨kind, hkind⟩, -⟩ := written w' n f' hn
        exact absurd hphase (hothers w' kind hkind hw)
      · rw [Function.update_of_ne hf]
        exact ⟨n, hn⟩

section Dispatches
variable {n : Nat}

theorem connected_of_dispatch (inv : Inv st) {d : Dispatch} (h : (st.conn w).dispatch = some d) :
    (st.conn w).phase = .connected := by
  by_contra hnot
  cases h.symm.trans ((inv.orderly w).torn hnot)

theorem claimRegular (inv : Inv st) (hdispatch : (st.conn w).dispatch = some (.registering f .regular n))
    (hconflict : st.conflicts f w = false) (hkind : f ∉ (st.conn w).externalFunctionIds) :
    Inv ((st.setOwner f (some (w, .regular))).write w f n .regular) := by
  have hconnected := inv.connected_of_dispatch hdispatch
  have horderly := inv.orderly w
  refine inv.change _ _ _ ?_ (fun w' kind howner hw => owner_of_unconflicted hconflict howner hw) ?_ ?_ ?_ ?_ ?_
    ?_ ?_
  · obtain ⟨torn, kinds, includingRegular, includingExternal, dropping, absent⟩ := horderly
    constructor <;> dsimp only [State.setOwner] <;> grind -ring -linarith [validating]
  · simp [Pending, State.setOwner, hconnected, Believes, claimed]
  · simp
  · simp only [State.setOwner, Believes, hdispatch, claimed]
    grind -ring -linarith
  · simp only [State.setOwner]
    grind -ring -linarith
  · simp only [State.setOwner, Pending, hconnected, Believes, hdispatch, claimed]
    grind -ring -linarith
  · simp [hdispatch, validating]
  · intro f' hf'
    simp [State.setOwner, Function.update_of_ne hf']

/-- The entry under the id, if a connection wrote it, is the claimant's own. -/
theorem claimExternal (inv : Inv st) (hdispatch : (st.conn w).dispatch = some (.registering f .external n))
    (hconflict : st.conflicts f w = false) (hkind : f ∉ (st.conn w).functionIds)
    (hwritten : ∀ w', WrittenBy st f w' → w' = w) :
    Inv ((st.setOwner f (some (w, .external))).setDispatch w (some (.validating f n))) := by
  have hconnected := inv.connected_of_dispatch hdispatch
  have horderly := inv.orderly w
  have hchange := inv.change (f := f) (w := w) { st.conn w with dispatch := some (.validating f n) }
    (some (w, .external)) (st.functions f)
    ?_ (fun w' kind howner hw => owner_of_unconflicted hconflict howner hw) ?_ ?_ ?_ ?_ ?_ ?_ ?_
  · rw [Function.update_eq_self] at hchange
    exact hchange
  · obtain ⟨torn, kinds, includingRegular, includingExternal, dropping, absent⟩ := horderly
    constructor <;> dsimp only <;> grind -ring -linarith [validating]
  · simp [Pending, hconnected, Believes, claimed, validating]
  · intro w' m hm
    have hw := hwritten w' ⟨m, hm⟩
    subst hw
    exact ⟨rfl, rfl, (inv.written w' m f hm).2⟩
  · simp only [Believes, hdispatch, claimed]
    grind -ring -linarith
  · intro _ f' hf'
    split
    · rename_i hf
      subst hf
      exact inv.listed w f' hconnected hf'
    · exact hf'
  · simp only [Pending, hconnected, Believes, hdispatch, claimed]
    grind -ring -linarith
  · simp [hdispatch, validating]
  · simp

theorem validated (inv : Inv st) (hdispatch : (st.conn w).dispatch = some (.validating f n)) :
    Inv (st.write w f n .external) := by
  have hconnected := inv.connected_of_dispatch hdispatch
  have horderly := inv.orderly w
  obtain ⟨kind, howner⟩ : ∃ kind, st.owners f = some (w, kind) :=
    inv.held w f hconnected (.inr (.inr (by simp [hdispatch, claimed])))
  have hchange := inv.change (f := f) (w := w)
    { st.conn w with latest := Function.update (st.conn w).latest f (some n)
                     dispatch := some (.including f .external) }
    (st.owners f) (some (.written w n)) ?_ ?_ ?_ ?_ ?_ ?_ ?_ ?_ ?_
  · rw [Function.update_eq_self] at hchange
    exact hchange
  · obtain ⟨torn, kinds, includingRegular, includingExternal, dropping, absent⟩ := horderly
    constructor <;> dsimp only <;> grind -ring -linarith [validating]
  · grind -ring -linarith
  · intro w' kind' h
    cases howner.symm.trans h
    simp [Pending, hconnected, Believes, claimed]
  · simp [howner]
  · simp only [Believes, hdispatch, claimed]
    grind -ring -linarith
  · dsimp only
    grind -ring -linarith
  · simp only [Pending, hconnected, Believes, hdispatch, claimed]
    grind -ring -linarith
  · intro f' hf'
    simp [hdispatch, validating, hf'.symm]
  · intro f' hf'
    simp [Function.update_of_ne hf']

/-- A dispatch that gives up leaves the id without an owner. -/
theorem giveUp (inv : Inv st) (hconnected : (st.conn w).phase = .connected)
    (hclaimed : ∀ f', claimed (st.conn w).dispatch = some f' → f' = f)
    (hothers : ∀ w' kind, st.owners f = some (w', kind) → w' ≠ w → (st.conn w').phase ≠ .connected)
    (hwritten : ∀ w', ¬ WrittenBy st f w') : Inv ((st.setOwner f none).setDispatch w none) := by
  have horderly := inv.orderly w
  have hunlisted : ¬ (f ∈ (st.conn w).functionIds ∨ f ∈ (st.conn w).externalFunctionIds) :=
    fun h => hwritten w (inv.listed w f hconnected h)
  have hchange := inv.change (f := f) (w := w) { st.conn w with dispatch := none } none
    (st.functions f) ?_ hothers ?_ ?_ ?_ ?_ ?_ ?_ ?_
  · rw [Function.update_eq_self] at hchange
    exact hchange
  · obtain ⟨torn, kinds, includingRegular, includingExternal, dropping, absent⟩ := horderly
    constructor <;> dsimp only <;> grind -ring -linarith [validating]
  · simp
  · exact fun w' m hm => absurd ⟨m, hm⟩ (hwritten w')
  · simp only [Believes, claimed]
    grind -ring -linarith
  · dsimp only
    grind -ring -linarith
  · simp only [Pending, hconnected, Believes]
    grind -ring -linarith
  · intro f' hf' hv
    exfalso
    refine hf' (hclaimed f' ?_)
    cases hd : (st.conn w).dispatch with
    | none => simp [hd, validating] at hv
    | some d => cases d <;> simp_all [validating, claimed]
  · simp

theorem added (inv : Inv st) {kind : InvocationKind} (hdispatch : (st.conn w).dispatch = some (.including f kind)) :
    Inv (st.setConn w { (st.conn w).includeFunctionId f kind with dispatch := none }) := by
  have hconnected := inv.connected_of_dispatch hdispatch
  obtain ⟨torn, kinds, includingRegular, includingExternal, dropping, absent⟩ := inv.orderly w
  have hregular (hkind : kind = .regular) := includingRegular f (hkind ▸ hdispatch)
  have hexternal (hkind : kind = .external) := includingExternal f (.inl (hkind ▸ hdispatch))
  cases kind
  all_goals
    refine inv.setConn ?_ (fun _ => .inl hconnected) ?_ ?_ ?_ ?_ rfl
    · constructor <;> dsimp only [Connection.includeFunctionId] <;> grind -ring -linarith [validating]
    · simp only [Believes, Connection.includeFunctionId, hdispatch, claimed]
      grind -ring -linarith
    · simp [hdispatch, validating]
    · intro f' _ _
      simp only [Pending, Connection.includeFunctionId, hconnected, Believes, hdispatch, claimed]
      grind -ring -linarith
    · simp [hdispatch, validating]

theorem isOwner_iff : st.isOwner w f = true ↔ ∃ kind, st.owners f = some (w, kind) := by
  unfold State.isOwner
  cases h : st.owners f with
  | none => simp
  | some owner => simp [Prod.ext_iff]

theorem drop (inv : Inv st) {kind : InvocationKind} (hdispatch : (st.conn w).dispatch = some (.dropping f kind)) :
    Inv ((st.releaseFunctionIfOwner w f).setConn w { (st.conn w).removeFunctionId f kind with dispatch := none }) := by
  have hconnected := inv.connected_of_dispatch hdispatch
  have hkinds := inv.orderly w
  -- the id is on the list it is taken from, or on none
  have hlists : ∀ f', f' ∈ ((st.conn w).removeFunctionId f kind).functionIds ∨
      f' ∈ ((st.conn w).removeFunctionId f kind).externalFunctionIds →
      f' ≠ f ∧ (f' ∈ (st.conn w).functionIds ∨ f' ∈ (st.conn w).externalFunctionIds) := by
    obtain ⟨torn, kinds, includingRegular, includingExternal, dropping, absent⟩ := hkinds
    have hdropping := dropping f kind hdispatch
    cases kind <;> dsimp only [Connection.removeFunctionId] <;> grind -ring -linarith
  have horderly : Orderly { (st.conn w).removeFunctionId f kind with dispatch := none } := by
    obtain ⟨torn, kinds, includingRegular, includingExternal, dropping, absent⟩ := hkinds
    cases kind <;> constructor <;> dsimp only [Connection.removeFunctionId] <;> grind -ring -linarith [validating]
  have hphase : ((st.conn w).removeFunctionId f kind).phase = .connected := by
    cases kind <;> exact hconnected
  have hlatest : ((st.conn w).removeFunctionId f kind).latest = (st.conn w).latest := by
    cases kind <;> rfl
  have hkept : ∀ f', f' ≠ f → (f' ∈ (st.conn w).functionIds → f' ∈ ((st.conn w).removeFunctionId f kind).functionIds) ∧
      (f' ∈ (st.conn w).externalFunctionIds → f' ∈ ((st.conn w).removeFunctionId f kind).externalFunctionIds) := by
    cases kind <;> dsimp only [Connection.removeFunctionId] <;> grind -ring -linarith
  by_cases howner : st.isOwner w f = true
  · obtain ⟨k, hk⟩ := isOwner_iff.mp howner
    rw [State.releaseFunctionIfOwner, if_pos howner]
    refine inv.change _ _ _ horderly ?_ ?_ ?_ ?_ ?_ ?_ ?_ ?_
    · grind -ring -linarith
    · simp
    · simp
    · simp only [Believes, claimed]
      grind -ring -linarith
    · dsimp only
      grind -ring -linarith
    · intro f' hf'
      simp only [Pending, hconnected, hphase, Believes, hdispatch, claimed]
      grind -ring -linarith
    · simp [hdispatch, validating]
    · simp [hlatest]
  · rw [State.releaseFunctionIfOwner, if_neg howner]
    have hnot : ¬ Believes (st.conn w) f := fun h => howner (isOwner_iff.mpr (inv.held w f hconnected h))
    refine inv.setConn horderly (fun _ => .inl hconnected) ?_ ?_ ?_ ?_ hlatest
    · simp only [Believes, claimed]
      grind -ring -linarith
    · simp [hdispatch, validating]
    · intro f' kind' hkind'
      have hf' : f' ≠ f := fun h => howner (isOwner_iff.mpr ⟨kind', h ▸ hkind'⟩)
      simp only [Pending, hconnected, hphase, Believes, hdispatch, claimed]
      grind -ring -linarith
    · simp [hdispatch, validating]

end Dispatches

/-- One id of the copied lists is done. -/
theorem release (inv : Inv st) {phase : Phase} (hphase : (st.conn w).phase ≠ .connected)
    (hphase' : phase ≠ .connected ∧ phase ≠ .absent)
    (hpending : ∀ f', f' ≠ f → Pending (st.conn w) f' → Pending { st.conn w with phase := phase } f') :
    Inv ((st.releaseFunctionIfOwner w f).setPhase w phase) := by
  have hdispatch := (inv.orderly w).torn hphase
  have horderly : Orderly { st.conn w with phase := phase } := by
    obtain ⟨torn, kinds, includingRegular, includingExternal, dropping, absent⟩ := inv.orderly w
    constructor <;> dsimp only <;> grind -ring -linarith [validating]
  by_cases howner : st.isOwner w f = true
  · obtain ⟨k, hk⟩ := isOwner_iff.mp howner
    rw [State.releaseFunctionIfOwner, if_pos howner]
    refine inv.change _ _ _ horderly ?_ ?_ ?_ ?_ ?_ ?_ ?_ ?_
    · grind -ring -linarith
    · simp
    · simp
    · exact fun h => absurd h hphase'.1
    · exact fun h => absurd h hphase'.1
    · exact hpending
    · simp [hdispatch, validating]
    · exact fun _ _ => rfl
  · rw [State.releaseFunctionIfOwner, if_neg howner]
    refine inv.setConn horderly (fun h => absurd h hphase'.1) (fun _ h => h) ?_ ?_ rfl rfl
    · simp [hdispatch, validating]
    · intro f' kind' hkind'
      exact hpending f' fun h => howner (isOwner_iff.mpr ⟨kind', h ▸ hkind'⟩)

/-- Teardown moves on. -/
theorem setPhase (inv : Inv st) {phase : Phase} (hdispatch : (st.conn w).dispatch = none)
    (hphase : phase = .connected → (st.conn w).phase = .absent) (hphase' : phase ≠ .absent)
    (hpending : ∀ f, Pending (st.conn w) f → Pending { st.conn w with phase := phase } f) :
    Inv (st.setPhase w phase) := by
  obtain ⟨torn, kinds, includingRegular, includingExternal, dropping, absent⟩ := inv.orderly w
  refine inv.setConn ?_ ?_ (fun _ h => h) ?_ (fun f _ _ => hpending f) rfl rfl
  · constructor <;> dsimp only <;> grind -ring -linarith
  · intro h
    right
    have habsent := absent (hphase h)
    simp [Believes, habsent, hdispatch, claimed]
  · simp [hdispatch, validating]

theorem step (inv : Inv st) {act : Act} (hmeets : Meets st act) (h : step st act = some st') : Inv st' := by
  cases act with
  | connect w =>
    simp only [Functions.step] at h
    split at h
    · rename_i hphase
      cases h
      refine inv.setPhase ((inv.orderly w).torn (by simp [hphase])) (fun _ => hphase) (by simp) ?_
      simp [Pending, hphase]
    · cases h
  | register w f kind n =>
    have hconnected : (st.conn w).phase = .connected := hmeets
    simp only [Functions.step, hconnected] at h
    split at h
    · rename_i hphase
      cases hphase
    · cases h
    · rename_i hdispatch _
      cases h
      exact inv.setDispatch hconnected (by simp [hdispatch, claimed]) rfl (by simp)
  | refuse w =>
    simp only [Functions.step] at h
    split at h
    · rename_i hdispatch
      cases h
      exact inv.setDispatch (inv.connected_of_dispatch hdispatch) (by simp [hdispatch, claimed]) rfl (by simp)
    · cases h
  | claim w =>
    simp only [Functions.step] at h
    split at h
    · rename_i f kind n hdispatch
      by_cases hconflict : st.conflicts f w = true
      · simp only [State.claimIn, hconflict, if_true, Option.some.injEq] at h
        subst h
        exact inv.setDispatch (inv.connected_of_dispatch hdispatch) (by simp [hdispatch, claimed]) rfl (by simp)
      · have hconflict : st.conflicts f w = false := by simpa using hconflict
        have hmeets := hmeets f kind n hdispatch hconflict
        simp only [State.claimIn, hconflict, Bool.false_eq_true, if_false] at h
        cases kind with
        | regular =>
          cases h
          exact inv.claimRegular hdispatch hconflict hmeets
        | external =>
          cases h
          exact inv.claimExternal hdispatch hconflict hmeets.1 hmeets.2
    · cases h
  | unloaded w =>
    simp only [Functions.step] at h
    split at h
    · rename_i f n hdispatch
      have hconnected := inv.connected_of_dispatch hdispatch
      by_cases hconflict : st.conflicts f w = true
      · simp only [State.claimIn, hconflict, if_true, Option.some.injEq] at h
        subst h
        exact inv.setDispatch hconnected (by simp [hdispatch, claimed]) rfl (by simp)
      · have hconflict : st.conflicts f w = false := by simpa using hconflict
        have hgiveUp : Inv ((st.setOwner f none).setDispatch w none) := by
          refine inv.giveUp hconnected ?_ ?_ (hmeets f n hdispatch hconflict)
          · simp [hdispatch, claimed]
          · exact fun w' kind howner hw => owner_of_unconflicted hconflict howner hw
        simp only [State.claimIn, hconflict, Bool.false_eq_true, if_false, State.releaseExternalFunctionIfOwner,
          Option.some.injEq] at h
        subst h
        have hreleased : (st.setOwner f (some (w, .external))).isOwner w f = true := by
          simp [State.isOwner, State.setOwner]
        rw [if_pos hreleased]
        simpa [State.setOwner] using hgiveUp
    · cases h
  | validated w =>
    simp only [Functions.step] at h
    split at h
    · rename_i hdispatch
      cases h
      exact inv.validated hdispatch
    · cases h
  | invalid w =>
    simp only [Functions.step] at h
    split at h
    · rename_i f n hdispatch
      have hconnected := inv.connected_of_dispatch hdispatch
      obtain ⟨kind, howner⟩ : ∃ kind, st.owners f = some (w, kind) :=
        inv.held w f hconnected (.inr (.inr (by simp [hdispatch, claimed])))
      rw [State.releaseExternalFunctionIfOwner, if_pos (isOwner_iff.mpr ⟨kind, howner⟩)] at h
      cases h
      refine inv.giveUp hconnected ?_ ?_ (hmeets f n hdispatch)
      · simp [hdispatch, claimed]
      · intro w' kind' howner' hw
        cases howner.symm.trans howner'
        exact absurd rfl hw
    · cases h
  | added w =>
    simp only [Functions.step] at h
    split at h
    · rename_i hdispatch
      cases h
      exact inv.added hdispatch
    · cases h
  | unregister w f =>
    have hconnected : (st.conn w).phase = .connected := hmeets
    simp only [Functions.step, hconnected] at h
    split at h
    · rename_i hphase
      cases hphase
    · cases h
    · rename_i hdispatch _
      cases h
      exact inv.setDispatch hconnected (by simp [hdispatch, claimed]) rfl (by simp)
  | check w =>
    simp only [Functions.step] at h
    split at h
    · rename_i f hdispatch
      cases h
      refine inv.setDispatch (inv.connected_of_dispatch hdispatch) (by simp [hdispatch, claimed]) rfl ?_
      intro f' kind hkind
      simp only [Option.some.injEq, Dispatch.dropping.injEq] at hkind
      obtain ⟨rfl, rfl⟩ := hkind
      split <;> simp_all
    · cases h
  | drop w =>
    simp only [Functions.step] at h
    split at h
    · rename_i hdispatch
      cases h
      exact inv.drop hdispatch
    · cases h
  | cleanup w =>
    have hdispatch : (st.conn w).dispatch = none := hmeets
    simp only [Functions.step] at h
    split at h
    · rename_i hphase
      cases h
      refine inv.setPhase hdispatch (by simp) (by simp) ?_
      simp [Pending, hphase, Believes, hdispatch, claimed]
    · cases h
  | snapshot w =>
    simp only [Functions.step] at h
    split at h
    · rename_i hphase
      cases h
      refine inv.setPhase ((inv.orderly w).torn (by simp [hphase])) (by simp) (by simp) ?_
      simp [Pending, hphase]
    · rename_i regular hphase
      cases h
      refine inv.setPhase ((inv.orderly w).torn (by simp [hphase])) (by simp) (by simp) ?_
      simp [Pending, hphase]
    · cases h
  | release w =>
    simp only [Functions.step] at h
    split at h
    · rename_i hphase
      cases h
      refine inv.release (by simp [hphase]) (by simp) ?_
      simp only [Pending, hphase]
      grind -ring -linarith
    · rename_i hphase
      cases h
      refine inv.release (by simp [hphase]) (by simp) ?_
      simp only [Pending, hphase]
      grind -ring -linarith
    · rename_i hphase
      cases h
      refine inv.setPhase ((inv.orderly w).torn (by simp [hphase])) (by simp) (by simp) ?_
      simp [Pending, hphase]
    · cases h
  | unregisterWorker w =>
    simp only [Functions.step] at h
    split at h
    · rename_i hphase
      cases h
      refine inv.setPhase ((inv.orderly w).torn (by simp [hphase])) (by simp) (by simp) ?_
      simp [Pending, hphase]
    · cases h

end Inv

/-- In every run whose steps meet the condition, owners, functions and connections agree. -/
theorem ownership_agrees (st : State) (h : (runs Meets).Reachable st) : Agree st := by
  have inv : Inv st := by
    refine h.invariant (I := Inv) ?_ ?_
    · rintro st ⟨builtins, rfl⟩
      exact Inv.booted builtins
    · rintro st st' - inv ⟨act, hmeets, hstep⟩
      exact inv.step hmeets hstep
  exact inv.agree

/-! ### Runs -/

/-- A connection is torn down while another takes its function over. -/
theorem ownership_agrees_takeover :
    ∃ st, (runs Meets).Reachable st ∧ (st.conn 0).phase = .gone ∧ st.functions "f" = some (.written 1 2) ∧
      Agree st := by
  have h₀ : (runs Meets).Reachable (.booted fun _ => false) := .init ⟨_, rfl⟩
  have h₁ := h₀.step ⟨.connect 0, trivial, rfl⟩
  have h₂ := h₁.step ⟨.register 0 "f" .regular 1, rfl, rfl⟩
  have h₃ := h₂.step ⟨.claim 0, ?_, rfl⟩
  have h₄ := h₃.step ⟨.added 0, trivial, rfl⟩
  have h₅ := h₄.step ⟨.connect 1, trivial, rfl⟩
  have h₆ := h₅.step ⟨.cleanup 0, rfl, rfl⟩
  have h₇ := h₆.step ⟨.register 1 "f" .regular 2, rfl, rfl⟩
  have h₈ := h₇.step ⟨.claim 1, ?_, rfl⟩
  have h₉ := h₈.step ⟨.added 1, trivial, rfl⟩
  have h₁₀ := h₉.step ⟨.snapshot 0, trivial, rfl⟩
  have h₁₁ := h₁₀.step ⟨.snapshot 0, trivial, rfl⟩
  have h₁₂ := h₁₁.step ⟨.release 0, trivial, rfl⟩
  have h₁₃ := h₁₂.step ⟨.release 0, trivial, rfl⟩
  have h₁₄ := h₁₃.step ⟨.unregisterWorker 0, trivial, rfl⟩
  · exact ⟨_, h₁₄, rfl, rfl, ownership_agrees _ h₁₄⟩
  · rintro f kind n ⟨⟩ -
    exact List.not_mem_nil
  · rintro f kind n ⟨⟩ -
    exact List.not_mem_nil

/-- An HTTP invocation under an id the connection already serves fails its check: with nothing
in progress the function is there and has no owner. -/
theorem orphaned_by_invalid :
    ∃ st, (runs fun _ _ => True).Reachable st ∧ Quiet st ∧ st.functions "f" = some (.written 0 1) ∧ st.owners "f" = none := by
  have h₀ : (runs fun _ _ => True).Reachable (.booted fun _ => false) := .init ⟨_, rfl⟩
  have h₁ := h₀.step ⟨.connect 0, trivial, rfl⟩
  have h₂ := h₁.step ⟨.register 0 "f" .regular 1, trivial, rfl⟩
  have h₃ := h₂.step ⟨.claim 0, trivial, rfl⟩
  have h₄ := h₃.step ⟨.added 0, trivial, rfl⟩
  have h₅ := h₄.step ⟨.register 0 "f" .external 2, trivial, rfl⟩
  have h₆ := h₅.step ⟨.claim 0, trivial, rfl⟩
  have h₇ := h₆.step ⟨.invalid 0, trivial, rfl⟩
  refine ⟨_, h₇, ?_, rfl, rfl⟩
  intro w
  by_cases hw : w = 0
  · subst hw
    exact ⟨rfl, .inr (.inl rfl)⟩
  · simp [State.setDispatch, State.setConn, State.releaseExternalFunctionIfOwner, State.setOwner, State.write,
      State.setPhase, State.isOwner, Function.update_of_ne hw, State.booted, Connection.absent]

end Iii.Engine.Functions
