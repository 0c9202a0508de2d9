import Iii.Registry.Agree
import Iii.Registry.Request

/-! Sending an `observe` again.

A worker that reattaches replays its observes, and each is to find its observer as it is. The observer keeps the spec
it was made with, whatever comes between. But the spec of the replay is made from the configuration of its own day,
and what the engine does not know of the captures is in neither: so a replay may be taken for another request, and
another request for a replay. -/
namespace Iii.Registry
open Lib
open Iii.Dispatch (On)
open Iii.Dispatch.Payload (Deliver CaptureSet)
open Iii.Owner (Conn FnKey ObserverState)
open Hooks (ErrorBody)

variable {ft : FloatText} {d d' : Nat} {R R' : ObserveRequest}

/-! ### Requests that ask for the same -/

/-- With the default of `max_in_flight` filled in as it was for each, and the filters normalized. What to capture is a
set. -/
structure SameRequest (ft : FloatText) (d d' : Nat) (R R' : ObserveRequest) : Prop where
  function : R'.function = R.function
  target : R'.targetKey = R.targetKey
  args : comparedValue R'.args = comparedValue R.args
  filters : comparedValue (R'.filters ft) = comparedValue (R.filters ft)
  capture : ∀ v, v ∈ R'.capture ↔ v ∈ R.capture
  on : R'.source.on.getD .success = R.source.on.getD .success
  deliver : R'.source.deliver.getD .envelope = R.source.deliver.getD .envelope
  metadata : R'.metadata.map comparedValue = R.metadata.map comparedValue
  maxFires : R'.maxFires = R.maxFires
  expiresInMs : R'.expiresInMs = R.expiresInMs
  maxInFlight : R'.maxInFlight.getD d' = R.maxInFlight.getD d

/-- The request without the captures that the engine does not know. -/
def ObserveRequest.knownOnly (R : ObserveRequest) : ObserveRequest :=
  { R with source := { R.source with capture := some (R.capture.filter fun v => (unknownCapture v).isNone) } }

def ObserveRequest.AllKnown (R : ObserveRequest) : Prop := ∀ v ∈ R.capture, unknownCapture v = none

theorem mem_captureList {l : List Capture} {v : Capture} :
    v ∈ captureList (captureSet l) ↔ v ∈ l ∧ unknownCapture v = none := by
  cases v <;> simp [captureList, captureSet, unknownCapture]

theorem captureList_eq_iff {l l' : List Capture} :
    captureList (captureSet l') = captureList (captureSet l) ↔
      ∀ v, v ∈ l'.filter (fun v => (unknownCapture v).isNone) ↔ v ∈ l.filter fun v => (unknownCapture v).isNone := by
  simp only [List.mem_filter, Option.isNone_iff_eq_none]
  constructor
  · intro h v
    rw [← mem_captureList, ← mem_captureList, h]
  · intro h
    have hknown : ∀ v, unknownCapture v = none → (v ∈ l' ↔ v ∈ l) := fun v hv => by simpa [hv] using h v
    have hset : captureSet l' = captureSet l := by
      unfold captureSet
      congr 1 <;> exact decide_eq_decide.mpr (hknown _ rfl)
    rw [hset]

theorem capture_knownOnly (R : ObserveRequest) :
    R.knownOnly.capture = R.capture.filter fun v => (unknownCapture v).isNone := rfl

/-- What a replay is compared on. -/
theorem spec_eq_iff : R.spec ft d = R'.spec ft d' ↔ SameRequest ft d d' R.knownOnly R'.knownOnly := by
  unfold ObserveRequest.spec
  rw [ObserveSpec.mk.injEq]
  constructor
  · rintro ⟨hfunction, htarget, hargs, hfilters, hcapture, hon, hdeliver, hmetadata, hfires, hexpires, hflight⟩
    refine ⟨hfunction.symm, htarget.symm, hargs.symm, hfilters.symm, ?_, hon.symm, hdeliver.symm, hmetadata.symm,
      hfires.symm, hexpires.symm, hflight.symm⟩
    rw [capture_knownOnly, capture_knownOnly]
    exact captureList_eq_iff.mp hcapture.symm
  · intro h
    refine ⟨h.function.symm, h.target.symm, h.args.symm, h.filters.symm, ?_, h.on.symm, h.deliver.symm,
      h.metadata.symm, h.maxFires.symm, h.expiresInMs.symm, h.maxInFlight.symm⟩
    exact (captureList_eq_iff.mpr h.capture).symm

theorem ObserveRequest.AllKnown.mem_capture_iff (h : R.AllKnown) (v : Capture) :
    v ∈ R.knownOnly.capture ↔ v ∈ R.capture := by
  rw [capture_knownOnly, List.mem_filter, Option.isNone_iff_eq_none]
  exact and_iff_left_of_imp (h v)

theorem ObserveRequest.AllKnown.same_left (h : R.AllKnown) :
    SameRequest ft d d' R.knownOnly R' ↔ SameRequest ft d d' R R' :=
  ⟨fun hs => { hs with capture := fun v => (hs.capture v).trans (h.mem_capture_iff v) },
    fun hs => { hs with capture := fun v => (hs.capture v).trans (h.mem_capture_iff v).symm }⟩

theorem ObserveRequest.AllKnown.same_right (h : R'.AllKnown) :
    SameRequest ft d d' R R'.knownOnly ↔ SameRequest ft d d' R R' :=
  ⟨fun hs => { hs with capture := fun v => (h.mem_capture_iff v).symm.trans (hs.capture v) },
    fun hs => { hs with capture := fun v => (h.mem_capture_iff v).trans (hs.capture v) }⟩

theorem SameRequest.allKnown (h : SameRequest ft d d' R R') (hknown : R.AllKnown) : R'.AllKnown :=
  fun v hv => hknown v ((h.capture v).mp hv)

/-- Against a request without unknown captures, what the spec does not tell apart are unknown captures. -/
theorem spec_eq_iff_of_allKnown (h : R.AllKnown) :
    R.spec ft d = R'.spec ft d' ↔ SameRequest ft d d' R R'.knownOnly := by
  rw [spec_eq_iff, h.same_left]

theorem spec_self_iff (R : ObserveRequest) :
    R.spec ft d = R.spec ft d' ↔ R.maxInFlight.isSome ∨ d' = d := by
  unfold ObserveRequest.spec
  rw [ObserveSpec.mk.injEq]
  simp only [true_and]
  cases R.maxInFlight with
  | none => simp [eq_comm]
  | some maxInFlight => simp

/-- Another request is told apart, unless it differs in unknown captures only. -/
theorem told_apart_iff (h : R.AllKnown) :
    (¬SameRequest ft d d' R R' → R.spec ft d ≠ R'.spec ft d') ↔
      R'.AllKnown ∨ ¬SameRequest ft d d' R R'.knownOnly := by
  rw [ne_eq, spec_eq_iff_of_allKnown h]
  constructor
  · intro htold
    by_cases hsame : SameRequest ft d d' R R'
    · exact .inl (hsame.allKnown h)
    · exact .inr (htold hsame)
  · rintro (hknown | hdiffers) hother
    · rwa [hknown.same_right]
    · exact hdiffers

/-! ### The observer keeps its spec -/

theorem ObserveRequest.allKnown_of_check (h : R.check = none) : R.AllKnown := by
  intro v hv
  unfold ObserveRequest.check at h
  simp only [Option.or_eq_none_iff, Option.map_eq_none_iff, List.findSome?_eq_none_iff] at h
  have hcapture := h.1.2
  unfold ObserveRequest.capture at hv
  cases hsource : R.source.capture with
  | none =>
    rw [hsource] at hv
    have hdefault : ∀ v ∈ defaultCapture, unknownCapture v = none := by decide
    exact hdefault v hv
  | some list =>
    rw [hsource] at hv hcapture
    exact hcapture v hv

section Accepted
variable {s s' : State ObserveSpec} {c : Conn} {r : Ref} {o : Observer ObserveSpec}

/-- `a` is an `observe` of the request on the connection, and it made an observer. -/
def Accepted (ft : FloatText) (s : State ObserveSpec) (a : Deps × Op ObserveSpec) (c : Conn) (R : ObserveRequest) : Prop :=
  (∃ tombstone rest after closing, a.2 = .observe c (R.toRequest ft) tombstone (R.checked rest) after closing) ∧
    (s.step a).get R.id = some s.next

theorem Accepted.spec {a : Deps × Op ObserveSpec} (hs : Sound s Nobody) (h : Accepted ft s a c R) :
    IdOk R.id ∧ R.check = none ∧
      ∃ o, (s.step a).heap s.next = some o ∧ o.id = R.id ∧ o.spec = R.spec ft s.config.defaultMaxInFlight := by
  obtain ⟨⟨tombstone, rest, after, closing, ha⟩, hget⟩ := h
  have hnew : ∀ message, (s.notify c message).get R.id ≠ some s.next := by
    intro message hget
    exact absurd rfl (Placed.ne_next hs.indexed hget)
  unfold State.step at hget ⊢
  rw [ha] at hget ⊢
  dsimp only at hget ⊢
  unfold State.observe at hget ⊢
  cases hcreate : s.create a.1 c (R.toRequest ft) tombstone (R.checked rest) after closing with
  | error error =>
    rw [hcreate] at hget
    exact absurd hget (hnew _)
  | ok s' =>
    rw [hcreate] at hget
    dsimp only at hget ⊢
    obtain ⟨message, rfl⟩ | ⟨checked, hchecked, -, hleads⟩ := create_cases hs.indexed hcreate
    · exact absurd hget (hnew message)
    · refine ⟨?_, ?_, ?_⟩
      · by_contra hid
        exact create_of_not_idOk hid hcreate
      · unfold ObserveRequest.checked at hchecked
        split at hchecked
        · cases hchecked
        · assumption
      · obtain ⟨u, hu, halike⟩ := publish_made a.1 s (s.newObserver a.1 c (R.toRequest ft) checked)
        obtain ⟨u', hu', halike'⟩ := hleads.grows.heap s.next u hu
        exact ⟨u', hu', halike'.id.trans halike.id, halike'.spec.trans halike.spec⟩

/-- How a replay is answered: with the state the observer is in, and why if that is an error. -/
def Observer.answer (o : Observer ObserveSpec) : Message :=
  .observeResult o.id o.state (if o.state = .error then o.reason else none) o.warnings

/-- The observer that the accepted request made, wherever the run has led. -/
theorem Accepted.kept {a : Deps × Op ObserveSpec} (hs : Sound s Nobody) (h : Accepted ft s a c R)
    (later : List (Deps × Op ObserveSpec)) :
    ∃ o, (s.run (a :: later)).heap s.next = some o ∧ o.id = R.id ∧ o.spec = R.spec ft s.config.defaultMaxInFlight := by
  obtain ⟨-, -, o, ho, hid, hspec⟩ := h.spec hs
  obtain ⟨u, hu, halike⟩ := ((step_sound hs a).run later).1.heap s.next o ho
  exact ⟨u, hu, halike.id.trans hid, halike.spec.trans hspec⟩

end Accepted

/-! ### The replay -/

/-- Its answer is all that comes of the replay. -/
def Answered (ft : FloatText) (s : State ObserveSpec) (c : Conn) (R : ObserveRequest) : Prop :=
  ∀ D tombstone checked after closing, ∃ o, s.find R.id = some o ∧
    s.create D c (R.toRequest ft) tombstone checked after closing = .ok (s.notify c o.answer)

/-- It is rejected, and its rejection is all that comes of it. -/
def Conflicts (ft : FloatText) (s : State ObserveSpec) (c : Conn) (R : ObserveRequest) : Prop :=
  ∀ D tombstone checked after closing, ∃ message,
    s.create D c (R.toRequest ft) tombstone checked after closing = .error ⟨"OBSERVER_ID_CONFLICT", message⟩ ∧
    s.observe D c (R.toRequest ft) tombstone checked after closing =
      s.notify c (.observeResult R.id .error (some ⟨"OBSERVER_ID_CONFLICT", message⟩) [])

section Found
variable {s : State ObserveSpec} {c : Conn} {o : Observer ObserveSpec}

theorem answered_iff (hid : IdOk R.id) (ho : s.find R.id = some o) (hname : o.id = R.id) (howned : o.connection = c) :
    Answered ft s c R ↔ o.spec = R.spec ft s.config.defaultMaxInFlight := by
  have hfound := create_found (R := R.toRequest ft) hid ho
  constructor
  · intro h
    obtain ⟨o', ho', hanswer⟩ := h ⟨fun _ => false, fun _ => none⟩ none (.error ⟨"", ""⟩) ⟨fun _ => false, fun _ => none⟩ none
    rw [hfound] at hanswer
    split at hanswer
    · rename_i hspec
      exact hspec.2
    · cases hanswer
  · intro hspec D tombstone checked after closing
    refine ⟨o, ho, ?_⟩
    rw [hfound, if_pos ⟨howned, hspec⟩]
    unfold Observer.answer
    rw [hname]
    rfl

theorem conflicts_iff (hid : IdOk R.id) (ho : s.find R.id = some o) (howned : o.connection = c) :
    Conflicts ft s c R ↔ o.spec ≠ R.spec ft s.config.defaultMaxInFlight := by
  have hfound := create_found (R := R.toRequest ft) hid ho
  constructor
  · intro h hspec
    obtain ⟨message, herror, -⟩ :=
      h ⟨fun _ => false, fun _ => none⟩ none (.error ⟨"", ""⟩) ⟨fun _ => false, fun _ => none⟩ none
    rw [hfound, if_pos ⟨howned, hspec⟩] at herror
    cases herror
  · intro hspec D tombstone checked after closing
    have hcreate := hfound D c tombstone checked after closing
    rw [if_neg fun hboth => hspec hboth.2] at hcreate
    refine ⟨_, hcreate, ?_⟩
    unfold State.observe
    rw [hcreate]
    rfl

end Found

/-- A request that was accepted, and whose observer is still there and owned by its connection: sent again it is
answered with the observer's state, and another request of the id is rejected, exactly when the request names
`max_in_flight` or the default is what it was, and the other differs from it in more than captures that the engine
does not know. -/
theorem replay_iff {config : ObserversConfig} {before later : List (Deps × Op ObserveSpec)}
    {a : Deps × Op ObserveSpec} {c : Conn} (haccepted : Accepted ft ((State.new config).run before) a c R)
    (hlive : ((State.new config).run (before ++ a :: later)).get R.id = some ((State.new config).run before).next)
    (howned : (((State.new config).run (before ++ a :: later)).find R.id).map (·.connection) = some c)
    (hid : R'.id = R.id) :
    let was := ((State.new config).run before).config.defaultMaxInFlight
    let now := ((State.new config).run (before ++ a :: later)).config.defaultMaxInFlight
    (Answered ft ((State.new config).run (before ++ a :: later)) c R ∧
        (¬SameRequest ft was now R R' → Conflicts ft ((State.new config).run (before ++ a :: later)) c R')) ↔
      (R.maxInFlight.isSome ∨ now = was) ∧ (R'.AllKnown ∨ ¬SameRequest ft was now R R'.knownOnly) := by
  intro was now
  have hs := run_sound (S := ObserveSpec) config before
  have hrun : (State.new config).run (before ++ a :: later) = ((State.new config).run before).run (a :: later) :=
    List.foldl_append ..
  obtain ⟨hok, hcheck, -⟩ := haccepted.spec hs
  obtain ⟨o, ho, hname, hspec⟩ := haccepted.kept hs later
  rw [← hrun] at ho
  have hfind := find_eq hlive ho
  rw [hfind] at howned
  have howned : o.connection = c := Option.some.inj howned
  rw [answered_iff hok hfind hname howned, conflicts_iff (R := R') (hid ▸ hok) (hid ▸ hfind) howned, hspec, spec_self_iff,
    told_apart_iff (ObserveRequest.allKnown_of_check hcheck)]

/-! #### A replay before and after another default of `max_in_flight` -/

def hostedAll : Deps := ⟨fun _ => true, fun _ => none⟩

def logOrders : ObserveRequest :=
  { id := "o"
    source := ⟨"orders::create", none, none, none, none, none, none⟩
    target := ⟨"log", none⟩
    metadata := none
    maxFires := none
    expiresInMs := none
    maxInFlight := none }

def logOneOrder : ObserveRequest := { logOrders with maxFires := some 1 }

def observeLogOrders : Deps × Op ObserveSpec :=
  (hostedAll, .observe 1 (logOrders.toRequest .exact) none
    (logOrders.checked (.ok ⟨logOrders.function, logOrders.targetKey, []⟩)) hostedAll none)

def doubleInFlight : Deps × Op ObserveSpec := (hostedAll, .setConfig ⟨4, 4, 2, 4⟩)

theorem logOrders_accepted : Accepted .exact ((State.new ⟨4, 4, 1, 4⟩).run []) observeLogOrders 1 logOrders :=
  ⟨⟨none, _, _, _, rfl⟩, by decide⟩

theorem logOrders_idOk : IdOk logOrders.id := by
  unfold IdOk
  decide

/-- Only the default is another, and the replay is rejected. -/
theorem replay_conflicts :
    Accepted .exact ((State.new ⟨4, 4, 1, 4⟩).run []) observeLogOrders 1 logOrders ∧
      ((State.new ⟨4, 4, 1, 4⟩).run [observeLogOrders, doubleInFlight]).get "o" = some 0 ∧
      (((State.new ⟨4, 4, 1, 4⟩).run [observeLogOrders, doubleInFlight]).find "o").map (·.connection) = some 1 ∧
      Conflicts .exact ((State.new ⟨4, 4, 1, 4⟩).run [observeLogOrders, doubleInFlight]) 1 logOrders := by
  have hlive : ((State.new ⟨4, 4, 1, 4⟩).run [observeLogOrders, doubleInFlight]).get "o" = some 0 := by decide
  have howned : (((State.new ⟨4, 4, 1, 4⟩).run [observeLogOrders, doubleInFlight]).find "o").map (·.connection) =
      some 1 := by decide
  refine ⟨logOrders_accepted, hlive, howned, ?_⟩
  obtain ⟨o, ho, -, hspec⟩ := logOrders_accepted.kept (sound_new _) [doubleInFlight]
  have hfind := find_eq hlive ho
  refine (conflicts_iff logOrders_idOk hfind ?_).mpr ?_
  · rw [hfind] at howned
    exact Option.some.inj howned
  · rw [hspec, ne_eq, spec_self_iff]
    decide

theorem replay_answered :
    Answered .exact ((State.new ⟨4, 4, 1, 4⟩).run [observeLogOrders]) 1 logOrders ∧
      (¬SameRequest .exact 1 1 logOrders logOneOrder →
        Conflicts .exact ((State.new ⟨4, 4, 1, 4⟩).run [observeLogOrders]) 1 logOneOrder) := by
  have hlive : ((State.new ⟨4, 4, 1, 4⟩).run ([] ++ observeLogOrders :: [])).get logOrders.id = some 0 := by decide
  have hknown : logOneOrder.AllKnown := by
    unfold ObserveRequest.AllKnown
    decide
  exact (replay_iff logOrders_accepted hlive (by decide) (show logOneOrder.id = logOrders.id from rfl)).mpr
    ⟨.inr rfl, .inl hknown⟩

end Iii.Registry
