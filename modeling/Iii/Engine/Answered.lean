import Iii.Engine.Invocation

/-! Every call is answered once, with an answer of its own.

The results here are about a call whose id no other call uses. Nothing is asked of the
other calls, nor of the workers, which may send any result under any id. -/
namespace Iii.Engine.Invocation
open Lib

variable {Id R : Type} [DecidableEq Id] {calls : Calls Id} {st st' : State Id R} {c : Nat} {w : Nat}

/-- No other call so far has the id of `c`. -/
def Unique (calls : Calls Id) (st : State Id R) (c : Nat) : Prop :=
  ∀ c', c' ≠ c → st.stage c' ≠ .idle → (calls c').id ≠ (calls c).id

def halting : Cleanup Id → Finset Id
  | .halting ids => ids
  | _ => ∅

/-- The teardown of `w`, or a result on its way, ends the call filed under `id`. -/
def Reaches (st : State Id R) (w : Nat) (id : Id) : Prop :=
  id ∈ st.tracked w ∨ id ∈ halting (st.cleanup w) ∨ ∃ reply ∈ st.replies, reply.2.1 = id

structure Own (calls : Calls Id) (c : Nat) (st : State Id R) : Prop where
  executor : ∀ w, st.stage c = .waiting → (calls c).target = .worker w → st.channel c = .filed →
    Reaches st w (calls c).id
  caller : ∀ a, st.stage c = .handling ∨ st.stage c = .waiting → (calls c).caller = some a →
    st.channel c = .filed → Reaches st a (calls c).id
  closed : (st.stage c).Active → st.channel c = .closed → st.cut c
  tracked : ∀ w, (calls c).id ∈ st.tracked w →
    ((calls c).caller = some w ∧ st.stage c ≠ .idle ∧ st.stage c ≠ .entering ∧ ∀ o, st.stage c ≠ .done o) ∨
      ((calls c).target = .worker w ∧ st.delivered c ∧ ¬ st.answered c)
  refusals : ∀ w held u, st.refusals w = some ⟨(calls c).id, held, u⟩ →
    st.stage c ≠ .idle ∧ ((st.stage c).Active → st.channel c ≠ .filed)
  delivered : st.delivered c → st.stage c ≠ .idle ∧ st.stage c ≠ .entering ∧ st.stage c ≠ .handling
  answered : st.answered c → st.delivered c
  cutShort : st.stage c = .ended .closed ∨ st.stage c = .done .closed → st.cut c
  unsent : st.channel c ≠ .sent .closed

namespace Own

omit [DecidableEq Id] in
theorem empty : Own calls c (State.empty : State Id R) := by
  constructor <;> simp [State.empty, Stage.Active]

omit [DecidableEq Id] in
/-- A step that leaves the call where it is, and everything that could end it. -/
theorem mono (own : Own calls c st) (hstage : st'.stage c = st.stage c)
    (hchannel : st'.channel c = st.channel c)
    (hreaches : ∀ w, Reaches st w (calls c).id → Reaches st' w (calls c).id)
    (htracked : ∀ w, (calls c).id ∈ st'.tracked w → (calls c).id ∈ st.tracked w)
    (hrefusals : ∀ w held u, st'.refusals w = some ⟨(calls c).id, held, u⟩ →
      ∃ w held u, st.refusals w = some ⟨(calls c).id, held, u⟩)
    (hdelivered : st'.delivered c = st.delivered c) (hanswered : st'.answered c = st.answered c)
    (hcut : st'.cut c = st.cut c) : Own calls c st' := by
  obtain ⟨executor, caller, closed, tracked, refusals, delivered, answered, cutShort, unsent⟩ := own
  constructor
  · rw [hstage, hchannel]
    exact fun w h₁ h₂ h₃ => hreaches w (executor w h₁ h₂ h₃)
  · rw [hstage, hchannel]
    exact fun w h₁ h₂ h₃ => hreaches w (caller w h₁ h₂ h₃)
  · rw [hstage, hchannel, hcut]
    exact closed
  · rw [hstage, hdelivered, hanswered]
    exact fun w hw => tracked w (htracked w hw)
  · rw [hstage, hchannel]
    intro w held u h
    obtain ⟨w, held, u, h⟩ := hrefusals w held u h
    exact refusals w held u h
  · rw [hstage, hdelivered]
    exact delivered
  · rw [hanswered, hdelivered]
    exact answered
  · rw [hstage, hcut]
    exact cutShort
  · rw [hchannel]
    exact unsent

section Others
variable {c₀ : Nat} {id : Id} {stage : Stage R}

omit [DecidableEq Id] in
/-- The steps of the other calls. -/
theorem setStage_other (own : Own calls c st) (h : c₀ ≠ c) : Own calls c (st.setStage c₀ stage) := by
  refine own.mono ?_ rfl (fun _ h => h) (fun _ h => h) (fun w held u h => ⟨w, held, u, h⟩) rfl rfl rfl
  exact Function.update_of_ne h.symm ..

omit [DecidableEq Id] in
theorem sender_other (inv : Inv calls st) (hid : id ≠ (calls c).id) (channel : Channel R) :
    st.withSender id channel c = st.channel c := by
  have hentry : st.invocations id ≠ some c := fun h => hid (inv.entry id c h).1.symm
  simp [State.withSender, hentry]

theorem ends_other (own : Own calls c st) (inv : Inv calls st) (h : c₀ ≠ c)
    (hid : (calls c₀).id ≠ (calls c).id) : Own calls c ((st.setStage c₀ stage).drop (calls c₀).id) := by
  have hstage : Own calls c (st.setStage c₀ stage) := own.setStage_other h
  refine hstage.mono rfl ?_ (fun _ h => h) (fun _ h => h) (fun w held u h => ⟨w, held, u, h⟩) rfl rfl rfl
  exact sender_other inv hid _

theorem track_other (own : Own calls c st) (hid : id ≠ (calls c).id) (w : Nat) : Own calls c (st.track w id) := by
  refine own.mono rfl rfl ?_ ?_ (fun w held u h => ⟨w, held, u, h⟩) rfl rfl rfl
  · intro w'
    simp only [Reaches, State.track]
    grind -ring -linarith [Function.update_apply]
  · intro w'
    simp only [State.track]
    grind -ring -linarith [Function.update_apply]

theorem untrack_other (own : Own calls c st) (hid : id ≠ (calls c).id) (w : Option Nat) :
    Own calls c (st.untrack? w id) := by
  refine own.mono rfl rfl ?_ ?_ (fun w held u h => ⟨w, held, u, h⟩) rfl rfl rfl
  · intro w'
    simp only [Reaches, State.untrack?]
    grind -ring -linarith
  · intro w'
    simp only [State.untrack?]
    grind -ring -linarith

theorem deliver_other (own : Own calls c st) (h : c₀ ≠ c) (hid : (calls c₀).id ≠ (calls c).id) (w : Nat) :
    Own calls c { (st.track w (calls c₀).id).setStage c₀ .waiting with
      outbox := Function.update st.outbox w (st.outbox w ++ [c₀])
      delivered := Function.update st.delivered c₀ True } := by
  have htrack : Own calls c (st.track w (calls c₀).id) := own.track_other hid w
  have hstage : Own calls c ((st.track w (calls c₀).id).setStage c₀ .waiting) := htrack.setStage_other h
  refine hstage.mono rfl rfl (fun _ h => h) (fun _ h => h) (fun w held u h => ⟨w, held, u, h⟩) ?_ rfl rfl
  exact Function.update_of_ne h.symm ..

end Others

/-! The steps of the call itself. -/

section Self
variable {stage : Stage R}

omit [DecidableEq Id] in
theorem refuse_self (own : Own calls c st) (h : st.stage c = .idle) :
    Own calls c (st.setStage c (.ended .refused)) := by
  obtain ⟨executor, caller, closed, tracked, refusals, delivered, answered, cutShort, unsent⟩ := own
  constructor <;> dsimp only [State.setStage] <;> grind -ring -linarith [Function.update_self, Stage.Active]

theorem start_self (own : Own calls c st) (inv : Inv calls st) (h : st.stage c = .idle) :
    Own calls c ((st.insert (calls c).id c).setStage c .entering) := by
  have hentry : st.invocations (calls c).id ≠ some c := by
    intro hentry
    have hactive := (inv.entry _ c hentry).2.1
    simp [h, Stage.Active] at hactive
  have hfresh := inv.fresh c h
  obtain ⟨executor, caller, closed, tracked, refusals, delivered, answered, cutShort, unsent⟩ := own
  constructor <;> dsimp only [State.setStage, State.insert] <;>
    grind -ring -linarith [Function.update_self, State.withSender, Stage.Active]

theorem enter_self (own : Own calls c st) {a : Nat} (h : st.stage c = .entering)
    (hcaller : (calls c).caller = some a) :
    Own calls c ((st.track a (calls c).id).setStage c .handling) := by
  obtain ⟨executor, caller, closed, tracked, refusals, delivered, answered, cutShort, unsent⟩ := own
  constructor <;> dsimp only [State.setStage, State.track] <;>
    grind -ring -linarith [Function.update_apply, Stage.Active, Reaches]

omit [DecidableEq Id] in
theorem enterUntracked_self (own : Own calls c st) (h : st.stage c = .entering)
    (hcaller : (calls c).caller = none) : Own calls c (st.setStage c .handling) := by
  obtain ⟨executor, caller, closed, tracked, refusals, delivered, answered, cutShort, unsent⟩ := own
  constructor <;> dsimp only [State.setStage] <;> grind -ring -linarith [Function.update_self, Stage.Active]

theorem deliver_self (own : Own calls c st) {w : Nat} (h : st.stage c = .handling)
    (htarget : (calls c).target = .worker w) :
    Own calls c { (st.track w (calls c).id).setStage c .waiting with
      outbox := Function.update st.outbox w (st.outbox w ++ [c])
      delivered := Function.update st.delivered c True } := by
  obtain ⟨executor, caller, closed, tracked, refusals, delivered, answered, cutShort, unsent⟩ := own
  constructor <;> dsimp only [State.setStage, State.track] <;>
    grind -ring -linarith [Function.update_apply, Stage.Active, Reaches]

theorem ends_self (own : Own calls c st) (h : (st.stage c).Active) (h' : ¬ stage.Active) (hidle : stage ≠ .idle)
    (hdone : ∀ o, stage ≠ .done o) (hclosed : stage = .ended .closed → st.channel c = .closed) : Own calls c ((st.setStage c stage).drop (calls c).id) := by
  obtain ⟨executor, caller, closed, tracked, refusals, delivered, answered, cutShort, unsent⟩ := own
  constructor <;> dsimp only [State.setStage, State.drop] <;>
    grind -ring -linarith [Function.update_self, State.withSender, Stage.Active]

theorem finish_self (own : Own calls c st) {o : Outcome R} (h : st.stage c = .ended o) :
    Own calls c ((st.untrack? (calls c).caller (calls c).id).setStage c (.done o)) := by
  obtain ⟨executor, caller, closed, tracked, refusals, delivered, answered, cutShort, unsent⟩ := own
  constructor <;> dsimp only [State.setStage, State.untrack?] <;> grind -ring -linarith [Function.update_self, Stage.Active]

end Self

/-! The steps of read loops, writers and teardowns. -/

theorem ends (own : Own calls c st) (inv : Inv calls st) {c₀ : Nat} {stage : Stage R}
    (hunique : Unique calls ((st.setStage c₀ stage).drop (calls c₀).id) c) (h : (st.stage c₀).Active)
    (h' : ¬ stage.Active) (hidle : stage ≠ .idle) (hdone : ∀ o, stage ≠ .done o)
    (hclosed : stage = .ended .closed → st.channel c₀ = .closed ∨ st.channel c₀ = .sent .closed) :
    Own calls c ((st.setStage c₀ stage).drop (calls c₀).id) := by
  by_cases hc : c₀ = c
  · subst hc
    exact own.ends_self h h' hidle hdone fun hstage => (hclosed hstage).resolve_right own.unsent
  · refine own.ends_other inv hc (hunique c₀ hc ?_)
    simpa [State.setStage, State.drop] using hidle

theorem reply (own : Own calls c st) (w : Nat) (id : Id) (r : R) :
    Own calls c { st.untrack w id with
      replies := (w, id, r) :: st.replies
      sent := (w, id, r) :: st.sent
      answered := fun c => st.answered c ∨
        (st.delivered c ∧ (calls c).id = id ∧ (calls c).target = .worker w) } := by
  have hreaches : ∀ w' id', Reaches st w' id' → id' ∈ (st.untrack w id).tracked w' ∨
      id' ∈ halting (st.cleanup w') ∨ ∃ reply ∈ (w, id, r) :: st.replies, reply.2.1 = id' := by
    rintro w' id' (h | h | ⟨reply, hmem, hid⟩)
    · by_cases hid : id' = id
      · exact .inr (.inr ⟨(w, id, r), by simp, hid.symm⟩)
      · left
        dsimp only [State.untrack, State.untrack?]
        grind -ring -linarith
    · exact .inr (.inl h)
    · exact .inr (.inr ⟨reply, by simp [hmem], hid⟩)
  obtain ⟨executor, caller, closed, tracked, refusals, delivered, answered, cutShort, unsent⟩ := own
  refine ⟨fun w h₁ h₂ h₃ => hreaches w _ (executor w h₁ h₂ h₃),
    fun a h₁ h₂ h₃ => hreaches a _ (caller a h₁ h₂ h₃), closed, ?_, refusals, delivered, ?_, cutShort, unsent⟩
  · dsimp only [State.untrack, State.untrack?]
    grind -ring -linarith
  · dsimp only [State.untrack, State.untrack?]
    grind -ring -linarith

omit [DecidableEq Id] in
/-- Taking the entry of an id out of the map, whoever does it: a call that is filed under it
is not filed any more. -/
theorem settle (own : Own calls c st) (inv : Inv calls st) (id : Id) {channel : Channel R}
    (hchannel : st'.channel = st.withSender id channel) (hfiled : channel ≠ .filed) (hclosed : channel ≠ .closed)
    (hstage : st'.stage = st.stage)
    (hreaches : ∀ id' w, id' ≠ id → Reaches st w id' → Reaches st' w id')
    (htracked : st'.tracked = st.tracked) (hrefusals : st'.refusals = st.refusals)
    (hdelivered : st'.delivered = st.delivered) (hanswered : st'.answered = st.answered)
    (hcut : st'.cut = st.cut) (hsent : channel ≠ .sent .closed) : Own calls c st' := by
  have filed := inv.filed c
  have entry := inv.entry
  obtain ⟨executor, caller, closed, tracked, refusals, delivered, answered, cutShort, unsent⟩ := own
  constructor
  · rw [hstage, hchannel]
    grind -ring -linarith [State.withSender, Stage.Active]
  · rw [hstage, hchannel]
    grind -ring -linarith [State.withSender, Stage.Active]
  · rw [hstage, hchannel, hcut]
    grind -ring -linarith [State.withSender]
  · rw [hstage, hdelivered, hanswered, htracked]
    exact tracked
  · rw [hstage, hchannel, hrefusals]
    grind -ring -linarith [State.withSender]
  · rw [hstage, hdelivered]
    exact delivered
  · rw [hanswered, hdelivered]
    exact answered
  · rw [hstage, hcut]
    exact cutShort
  · rw [hchannel]
    grind -ring -linarith [State.withSender]

theorem refuseTake (own : Own calls c st) (inv : Inv calls st) {c₀ w : Nat} {rest : List Nat}
    (hmem : c₀ ∈ st.outbox w) (hunique : c₀ ≠ c → (calls c₀).id ≠ (calls c).id) :
    Own calls c { st with
      outbox := Function.update st.outbox w rest
      refusals := Function.update st.refusals w (some ⟨(calls c₀).id, st.invocations (calls c₀).id, false⟩)
      invocations := Function.update st.invocations (calls c₀).id none
      channel := st.withSender (calls c₀).id (.refusing w) } := by
  have filed := inv.filed c
  have entry := inv.entry
  have houtbox := inv.outbox w c₀ hmem
  obtain ⟨executor, caller, closed, tracked, refusals, delivered, answered, cutShort, unsent⟩ := own
  refine ⟨?_, ?_, ?_, tracked, ?_, delivered, answered, cutShort, ?_⟩
  · intro w' h₁ h₂ h₃
    refine executor w' h₁ h₂ ?_
    dsimp only at h₃
    grind -ring -linarith [State.withSender]
  · intro a h₁ h₂ h₃
    refine caller a h₁ h₂ ?_
    dsimp only at h₃
    grind -ring -linarith [State.withSender]
  · dsimp only
    grind -ring -linarith [State.withSender]
  · dsimp only
    grind -ring -linarith [State.withSender, Function.update_apply]
  · dsimp only
    grind -ring -linarith [State.withSender]

/-- While a message is being refused its call is not filed, so its id may be untracked. -/
theorem refuseUntrack (own : Own calls c st) {w : Nat} {id : Id} {held : Option Nat} {u : Bool}
    (h : st.refusals w = some ⟨id, held, u⟩) {refusal' : Option (Refusal Id)}
    (hrefusal : ∀ r, refusal' = some r → r.id = id) (a : Option Nat) :
    Own calls c { st.untrack? a id with refusals := Function.update st.refusals w refusal' } := by
  obtain ⟨executor, caller, closed, tracked, refusals, delivered, answered, cutShort, unsent⟩ := own
  have hreaches : ∀ w', (id = (calls c).id → False) → Reaches st w' (calls c).id →
      Reaches { st.untrack? a id with refusals := Function.update st.refusals w refusal' } w' (calls c).id := by
    intro w' hid
    simp only [Reaches, State.untrack?]
    grind -ring -linarith
  refine ⟨?_, ?_, closed, ?_, ?_, delivered, answered, cutShort, unsent⟩
  · intro w' h₁ h₂ h₃
    refine hreaches w' ?_ (executor w' h₁ h₂ h₃)
    rintro rfl
    exact (refusals w held u h).2 (.inr (.inr h₁)) h₃
  · intro a' h₁ h₂ h₃
    refine hreaches a' ?_ (caller a' h₁ h₂ h₃)
    rintro rfl
    exact (refusals w held u h).2 (.inr h₁) h₃
  · dsimp only [State.untrack?]
    grind -ring -linarith
  · dsimp only [State.untrack?]
    grind -ring -linarith [Function.update_apply]

omit [DecidableEq Id] in
theorem release (own : Own calls c st) {c₀ w : Nat} {id : Id} {u : Bool} {channel : Channel R}
    (h : st.refusals w = some ⟨id, some c₀, u⟩) {refusal' : Option (Refusal Id)}
    (hrefusal : ∀ r, refusal' = some r → r.id = id) (hchannel : channel ≠ .filed)
    (hchannel' : st'.channel = Function.update st.channel c₀ channel)
    (hstage : st'.stage = st.stage) (htracked : st'.tracked = st.tracked) (hcleanup : st'.cleanup = st.cleanup)
    (hreplies : st'.replies = st.replies) (hrefusals : st'.refusals = Function.update st.refusals w refusal')
    (hdelivered : st'.delivered = st.delivered) (hanswered : st'.answered = st.answered)
    (hcut : ∀ c, st.cut c → st'.cut c) (hclosed : channel = .closed → st'.cut c₀)
    (hsent : channel ≠ .sent .closed) : Own calls c st' := by
  have hreaches : ∀ w' id, Reaches st w' id → Reaches st' w' id := by
    intro w' id h
    simpa [Reaches, htracked, hcleanup, hreplies] using h
  obtain ⟨executor, caller, closed, tracked, refusals, delivered, answered, cutShort, unsent⟩ := own
  constructor
  · rw [hstage, hchannel']
    grind -ring -linarith [Function.update_apply]
  · rw [hstage, hchannel']
    grind -ring -linarith [Function.update_apply]
  · rw [hstage, hchannel']
    grind -ring -linarith [Function.update_apply]
  · rw [hstage, hdelivered, hanswered, htracked]
    exact tracked
  · rw [hstage, hchannel', hrefusals]
    grind -ring -linarith [Function.update_apply]
  · rw [hstage, hdelivered]
    exact delivered
  · rw [hanswered, hdelivered]
    exact answered
  · rw [hstage]
    exact fun h => hcut c (cutShort h)
  · rw [hchannel']
    grind -ring -linarith [Function.update_apply]

theorem step (own : Own calls c st) (inv : Inv calls st) (hunique : Unique calls st' c)
    (h : Step calls st st') : Own calls c st' := by
  cases h with
  | refuse c₀ h =>
    by_cases hc : c₀ = c
    · subst hc
      exact own.refuse_self h
    · exact own.setStage_other hc
  | start c₀ h =>
    by_cases hc : c₀ = c
    · subst hc
      exact own.start_self inv h
    · have hid : (calls c₀).id ≠ (calls c).id := hunique c₀ hc (by simp [State.setStage])
      have hinsert : Own calls c (st.insert (calls c₀).id c₀) := by
        refine own.mono rfl ?_ (fun _ h => h) (fun _ h => h) (fun w held u h => ⟨w, held, u, h⟩) rfl rfl rfl
        exact sender_other inv hid _
      exact hinsert.setStage_other hc
  | enter c₀ a h hcaller hlive =>
    by_cases hc : c₀ = c
    · subst hc
      exact own.enter_self h hcaller
    · have hid : (calls c₀).id ≠ (calls c).id := hunique c₀ hc (by simp [State.setStage])
      exact (own.track_other hid a).setStage_other hc
  | enterUntracked c₀ h hcaller =>
    by_cases hc : c₀ = c
    · subst hc
      exact own.enterUntracked_self h hcaller
    · exact own.setStage_other hc
  | deliver c₀ w h htarget hlive =>
    by_cases hc : c₀ = c
    · subst hc
      exact own.deliver_self h htarget
    · exact own.deliver_other hc (hunique c₀ hc (by simp [State.setStage])) w
  | finish c₀ o h =>
    by_cases hc : c₀ = c
    · subst hc
      exact own.finish_self h
    · have hid : (calls c₀).id ≠ (calls c).id := hunique c₀ hc (by simp [State.setStage])
      exact (own.untrack_other hid _).setStage_other hc
  | enterStopped c₀ a h hcaller hclaimed =>
    exact own.ends inv hunique (.inl h) (by simp [Stage.Active]) (by simp) (by simp) (by simp)
  | handled c₀ r h htarget =>
    exact own.ends inv hunique (.inr (.inl h)) (by simp [Stage.Active]) (by simp) (by simp) (by simp)
  | targetStopped c₀ w h htarget hclaimed =>
    exact own.ends inv hunique (.inr (.inl h)) (by simp [Stage.Active]) (by simp) (by simp) (by simp)
  | sendFailed c₀ w h htarget =>
    exact own.ends inv hunique (.inr (.inl h)) (by simp [Stage.Active]) (by simp) (by simp) (by simp)
  | receive c₀ o h hchannel =>
    refine own.ends inv hunique (.inr (.inr h)) (by simp [Stage.Active]) (by simp) (by simp) ?_
    rintro ⟨⟩
    exact .inr hchannel
  | receiveClosed c₀ h hchannel =>
    exact own.ends inv hunique (.inr (.inr h)) (by simp [Stage.Active]) (by simp) (by simp) fun _ => .inl hchannel
  | cancel c₀ h => exact own.ends inv hunique h (by simp [Stage.Active]) (by simp) (by simp) (by simp)
  | reply w id r => exact own.reply w id r
  | answer before after w id r h =>
    refine own.settle inv id rfl (by simp) (by simp) rfl ?_ rfl rfl rfl rfl rfl (by simp)
    rintro id' w' hid (htracked | hhalting | ⟨reply, hmem, rfl⟩)
    · exact .inl htracked
    · exact .inr (.inl hhalting)
    · refine .inr (.inr ⟨reply, ?_, rfl⟩)
      rw [h] at hmem
      grind -ring -linarith
  | written w c₀ rest h hwriter =>
    exact own.mono rfl rfl (fun _ h => h) (fun _ h => h) (fun w held u h => ⟨w, held, u, h⟩) rfl rfl rfl
  | refuseTake w c₀ rest h hwriter =>
    have hmem : c₀ ∈ st.outbox w := by simp [h]
    exact own.refuseTake inv hmem fun hc => hunique c₀ hc (inv.outbox w c₀ hmem)
  | refuseUntrack w c₀ id h => exact own.refuseUntrack h (by simp) _
  | refuseMissing w c₀ id h => exact own.refuseUntrack h (by simp) none
  | refuseSend w c₀ id h =>
    exact own.release h (by simp) (by simp) rfl rfl rfl rfl rfl rfl rfl rfl (fun _ h => h) (by simp) (by simp)
  | refuseEnd w id untracked h => exact own.refuseUntrack h (by simp) (some w)
  | abortHeld w c₀ id untracked h =>
    refine own.release h (by simp) (by simp) rfl rfl rfl rfl rfl rfl rfl rfl ?_ ?_ (by simp)
    · dsimp only
      grind -ring -linarith [Function.update_apply]
    · simp
  | abort w h =>
    refine own.mono rfl rfl (fun _ h => h) (fun _ h => h) ?_ rfl rfl rfl
    dsimp only
    grind -ring -linarith [Function.update_apply]
  | claim w h =>
    refine own.mono rfl rfl ?_ (fun _ h => h) (fun w held u h => ⟨w, held, u, h⟩) rfl rfl rfl
    intro w'
    simp only [Reaches]
    grind -ring -linarith [Function.update_apply, halting]
  | drain w h =>
    refine own.mono rfl rfl ?_ ?_ (fun w held u h => ⟨w, held, u, h⟩) rfl rfl rfl
    · intro w'
      simp only [Reaches]
      grind -ring -linarith [Function.update_apply, halting]
    · dsimp only
      grind -ring -linarith [Function.update_apply]
  | halt w ids id h hid =>
    refine own.settle inv id rfl (by simp) (by simp) rfl ?_ rfl rfl rfl rfl rfl (by simp)
    intro id' w' hid'
    simp only [Reaches, State.settle]
    grind -ring -linarith [Function.update_apply, halting]
  | cleaned w h =>
    refine own.mono rfl rfl ?_ (fun _ h => h) (fun w held u h => ⟨w, held, u, h⟩) rfl rfl rfl
    intro w'
    simp only [Reaches]
    grind -ring -linarith [Function.update_apply, halting]

end Own

/-- A connection whose ids have been drained tracks none again. -/
def Drained (st : State Id R) : Prop :=
  ∀ w, (∃ ids, st.cleanup w = .halting ids) ∨ st.cleanup w = .finished → st.tracked w = ∅

omit [DecidableEq Id] in
theorem Drained.frame (hdrained : Drained st) (hcleanup : st'.cleanup = st.cleanup)
    (htracked : ∀ w, st'.tracked w ⊆ st.tracked w) : Drained st' := by
  intro w hw
  rw [hcleanup] at hw
  exact Finset.subset_empty.mp (hdrained w hw ▸ htracked w)

theorem Drained.step (hdrained : Drained st) (h : Step calls st st') : Drained st' := by
  cases h with
  | enter c₀ a h hcaller hlive =>
    intro w hw
    dsimp only [State.setStage, State.track] at hw ⊢
    grind -ring -linarith [Function.update_apply, Drained]
  | deliver c₀ a h hcaller hlive =>
    intro w hw
    dsimp only [State.setStage, State.track] at hw ⊢
    grind -ring -linarith [Function.update_apply, Drained]
  | claim w h | drain w h | halt w ids id h hid | cleaned w h =>
    intro w hw
    dsimp only [State.settle] at hw ⊢
    grind -ring -linarith [Function.update_apply, Drained]
  | finish | reply | refuseUntrack | refuseEnd =>
    refine hdrained.frame rfl fun w => ?_
    dsimp only [State.setStage, State.untrack, State.untrack?]
    split
    · exact Finset.erase_subset ..
    · exact subset_rfl
  | refuse | start | enterUntracked | enterStopped | handled | targetStopped | sendFailed | receive | receiveClosed
  | cancel | answer | written | refuseTake | refuseMissing | refuseSend | abortHeld | abort =>
    exact hdrained.frame rfl fun w => subset_rfl

/-! ### The statement -/

/-- Call `c` has a result. -/
def HasResult (st : State Id R) (c : Nat) (outcome : Outcome R) : Prop :=
  st.stage c = .ended outcome ∨ st.stage c = .done outcome

/-- What holds of a call at any time. -/
structure Answered (calls : Calls Id) (st : State Id R) (c : Nat) : Prop where
  /-- It ends with one result. -/
  once : ∀ outcome, HasResult st c outcome → ∀ st', Step calls st st' → HasResult st' c outcome
  /-- A deferred call has its answer, or a result or a refusal with its id is half way through,
  by the time the teardown of its executor or of its caller is over. -/
  ends : ∀ w, st.stage c = .waiting → (calls c).target = .worker w ∨ (calls c).caller = some w →
    st.cleanup w = .finished → (∃ outcome, st.channel c = .sent outcome) ∨ st.channel c = .closed ∨
      (∃ w', st.channel c = .refusing w') ∨ ∃ reply ∈ st.replies, reply.2.1 = (calls c).id
  /-- The result is the handler's, one of the engine's errors, or one that a worker sent under
  the id of the call; the channel closes on a call only where its refusal was cut short. -/
  own : ∀ outcome, HasResult st c outcome →
    Legit calls st.sent c outcome ∧ (outcome = .closed → st.cut c)
  /-- Afterwards the map and the caller have forgotten the id, and so has the executor unless
  it has yet to answer. -/
  forgotten : ∀ outcome, st.stage c = .done outcome → st.invocations (calls c).id = none ∧
    ∀ w, (calls c).id ∈ st.tracked w → (calls c).target = .worker w ∧ st.delivered c ∧ ¬ st.answered c

/-- Where a step moves a call, if it moves one: on from a stage without a result, or from
`ended` to `done`. -/
theorem stage_step (h : Step calls st st') : st'.stage = st.stage ∨ ∃ c₀ stage,
    st'.stage = Function.update st.stage c₀ stage ∧ stage ≠ .idle ∧
      (st.stage c₀ = .idle ∨ (st.stage c₀).Active ∨ ∃ o, st.stage c₀ = .ended o ∧ stage = .done o) := by
  cases h with
  | refuse c₀ h | start c₀ h => exact .inr ⟨c₀, _, rfl, by simp, .inl h⟩
  | enter c₀ a h hcaller hlive => exact .inr ⟨c₀, _, rfl, by simp, .inr (.inl (.inl h))⟩
  | enterUntracked c₀ h hcaller => exact .inr ⟨c₀, _, rfl, by simp, .inr (.inl (.inl h))⟩
  | enterStopped c₀ a h hcaller hclaimed => exact .inr ⟨c₀, _, rfl, by simp, .inr (.inl (.inl h))⟩
  | handled c₀ r h htarget => exact .inr ⟨c₀, _, rfl, by simp, .inr (.inl (.inr (.inl h)))⟩
  | targetStopped c₀ w h htarget hclaimed => exact .inr ⟨c₀, _, rfl, by simp, .inr (.inl (.inr (.inl h)))⟩
  | sendFailed c₀ w h htarget => exact .inr ⟨c₀, _, rfl, by simp, .inr (.inl (.inr (.inl h)))⟩
  | deliver c₀ w h htarget hlive => exact .inr ⟨c₀, _, rfl, by simp, .inr (.inl (.inr (.inl h)))⟩
  | receive c₀ o h hchannel => exact .inr ⟨c₀, _, rfl, by simp, .inr (.inl (.inr (.inr h)))⟩
  | receiveClosed c₀ h hchannel => exact .inr ⟨c₀, _, rfl, by simp, .inr (.inl (.inr (.inr h)))⟩
  | cancel c₀ h => exact .inr ⟨c₀, _, rfl, by simp, .inr (.inl h)⟩
  | finish c₀ o h => exact .inr ⟨c₀, _, rfl, by simp, .inr (.inr ⟨o, h, rfl⟩)⟩
  | reply | answer | written | refuseTake | refuseUntrack | refuseMissing | refuseSend | refuseEnd | abortHeld
  | abort | claim | drain | halt | cleaned => exact .inl rfl

theorem HasResult.step {outcome : Outcome R} (hresult : HasResult st c outcome) (h : Step calls st st') :
    HasResult st' c outcome := by
  obtain hstage | ⟨c₀, stage, hstage, -, hmove⟩ := stage_step h
  · rwa [HasResult, hstage]
  · rw [HasResult, hstage]
    by_cases hc : c = c₀
    · subst hc
      rw [Function.update_self]
      obtain hmove | hmove | ⟨o, hmove, rfl⟩ := hmove
      · simp [HasResult, hmove] at hresult
      · obtain hmove | hmove | hmove := hmove <;> simp [HasResult, hmove] at hresult
      · simp only [HasResult, hmove, Stage.ended.injEq, reduceCtorEq, or_false] at hresult
        exact .inr (hresult ▸ rfl)
    · rw [Function.update_of_ne hc]
      exact hresult

/-- An id that is unique has always been. -/
theorem Unique.of_step (hunique : Unique calls st' c) (h : Step calls st st') : Unique calls st c := by
  intro c' hc hidle
  refine hunique c' hc ?_
  obtain hstage | ⟨c₀, stage, hstage, hstage', -⟩ := stage_step h
  · rwa [hstage]
  · rw [hstage]
    by_cases hc' : c' = c₀
    · subst hc'
      rwa [Function.update_self]
    · rwa [Function.update_of_ne hc']

/-- Connection 1 calls a function of connection 2, under an id of its choice. -/
def oneToTwo : Calls Nat := fun _ => ⟨7, some 1, some 1, .worker 2⟩

omit [DecidableEq Id] in
/-- Only the first call has been made. -/
theorem unique_of_idle (hidle : ∀ c, c ≠ 0 → st.stage c = .idle) : Unique calls st 0 :=
  fun c hc hstage => absurd (hidle c hc) hstage

end Iii.Engine.Invocation
