import Iii.Dispatch.Events
import Iii.Filter.Reads
import Iii.Lib.Assoc

/-! What is kept of a call (`observer/owner.rs`, `observer/dispatch.rs`).

`ActiveSet::new` adds up what the observers of a function read, capture or deliver. What nobody needs is not kept: the
input and the metadata by `begin`, the output and the error by `complete`, the caller by `evaluate`. To each observer
of the set the rest is as good as all of it. -/
namespace Iii.Dispatch.Payload
open Filter (Doc Root Roots)

structure CaptureSet where
  input : Bool
  output : Bool
  error : Bool
  caller : Bool
  metadata : Bool
deriving DecidableEq

inductive Deliver where
  | envelope | input | output
  | unknown (deliver : String)
deriving DecidableEq

/-- The filter is one that `observe` compiled; without filters it is that of `{}`. -/
structure Observer (ft : FloatText) where
  id : String
  on : On
  filter : Filter
  capture : CaptureSet
  deliver : Deliver
  compiled : ∃ src, Filter.parse ft src = .ok filter

structure Needs where
  input : Bool := false
  output : Bool := false
  error : Bool := false
  caller : Bool := false
  metadata : Bool := false
deriving DecidableEq

def Needs.all : Needs := ⟨true, true, true, true, true⟩

variable {ft : FloatText}

/-- The pass of the loop in `ActiveSet::new`. -/
def Needs.add (needs : Needs) (observer : Observer ft) : Needs :=
  let roots := observer.filter.roots
  let capture := observer.capture
  { input := needs.input || (roots.input || capture.input || observer.deliver = .input)
    output := needs.output || (roots.output || capture.output || observer.deliver = .output)
    error := needs.error || (roots.error || capture.error)
    caller := needs.caller || (roots.caller || capture.caller)
    metadata := needs.metadata || (roots.metadata || capture.metadata) }

def Needs.of (observers : List (Observer ft)) : Needs := observers.foldl Needs.add {}

/-! ### From the call to the document -/

structure ErrorBody where
  code : String
  message : String
  stacktrace : Option String

def ErrorBody.toValue (error : ErrorBody) : Value :=
  .object ([("code", .string error.code), ("message", .string error.message)] ++
    (error.stacktrace.map fun stacktrace => ("stacktrace", .string stacktrace)).toList)

inductive Result where
  | output (output : Option Value)
  | error (error : ErrorBody)
  /-- Nobody is left to answer. -/
  | lost (message : String)

/-- A call and how it ended; `caller` is what its context says of the caller, `durationMs` the number that JSON has
for the duration, if it has one. -/
structure Invocation where
  namespaceId : String
  functionId : String
  invocationId : String
  body : Value
  metadata : Option Value
  fromConnection : Bool
  result : Result
  caller : Option Value
  startedAtMs : Fin (2 ^ 64)
  durationMs : Option Number

structure Tracked where
  input : Option Value
  metadata : Option Value

structure Completed where
  namespaceId : String
  functionId : String
  invocationId : String
  success : Bool
  input : Option Value
  output : Option Value
  error : Option Value
  caller : Option Value
  metadata : Option Value
  startedAtMs : Fin (2 ^ 64)
  durationMs : Option Number

/-- The payload as the caller sent it. -/
def withoutStamp (fromConnection : Bool) : Value → Value
  | .object map => .object (if fromConnection then Lib.Assoc.erase map "_caller_worker_id" else map)
  | body => body

/-- `begin`, of a call that the evaluator has room for. -/
def begin (needs : Needs) (inv : Invocation) : Tracked where
  input := if needs.input then some (withoutStamp inv.fromConnection inv.body) else none
  metadata := if needs.metadata then inv.metadata else none

/-- What `complete` keeps of the result. -/
def complete (needs : Needs) : Result → Bool × Option Value × Option ErrorBody
  | .output output => (true, if needs.output then output else none, none)
  | .error error => (false, none, if needs.error then some error else none)
  | .lost message => (false, none, if needs.error then some ⟨"invocation_error", message, none⟩ else none)

/-- What the evaluator sees of a call. -/
def evaluated (needs : Needs) (inv : Invocation) : Completed :=
  let call := begin needs inv
  let (success, output, error) := complete needs inv.result
  { namespaceId := inv.namespaceId
    functionId := inv.functionId
    invocationId := inv.invocationId
    success := success
    input := call.input
    output := output
    error := error.map ErrorBody.toValue
    caller := if needs.caller then inv.caller else none
    metadata := call.metadata
    startedAtMs := inv.startedAtMs
    durationMs := inv.durationMs }

def Completed.doc (completed : Completed) : Doc :=
  ⟨completed.input, completed.output, completed.error, completed.caller, completed.metadata⟩

/-! ### What an observer sees -/

/-- The question of `evaluate`. -/
def Observer.matches (observer : Observer ft) (completed : Completed) : Bool :=
  accepts observer.on completed.success && observer.filter.matches completed.doc

def shipped (value : Option Value) : Value := value.getD .null

/-- The envelope without the parts that are captured. -/
def envelope (observer : Observer ft) (completed : Completed) (activationId : String) : List (String × Value) :=
  [("observer_id", .string observer.id), ("activation_id", .string activationId),
    ("function_id", .string completed.functionId), ("namespace", .string completed.namespaceId),
    ("invocation_id", .string completed.invocationId),
    ("status", .string (if completed.success then "success" else "error"))]

def capturePart (envelope : List (String × Value)) (wanted : Bool) (key : String) (value : Option Value) :
    List (String × Value) :=
  match wanted, value with
  | true, some value => Lib.Assoc.insert envelope key value
  | _, _ => envelope

def project (observer : Observer ft) (completed : Completed) (activationId : String) : Value :=
  match observer.deliver with
  | .input => shipped completed.input
  | .output => shipped completed.output
  | .envelope | .unknown _ =>
    let capture := observer.capture
    let envelope := envelope observer completed activationId
    let envelope := capturePart envelope capture.input "input" completed.input
    let envelope := capturePart envelope capture.error "error" completed.error
    let envelope := capturePart envelope capture.caller "caller" completed.caller
    let envelope := capturePart envelope capture.metadata "metadata" completed.metadata
    let envelope :=
      if capture.output && completed.success then Lib.Assoc.insert envelope "output" (shipped completed.output)
      else envelope
    let envelope := Lib.Assoc.insert envelope "started_at_ms" (.number (.posInt completed.startedAtMs))
    .object (Lib.Assoc.insert envelope "duration_ms" ((completed.durationMs.map Json.number).getD .null))

/-! ### Needs -/

def CaptureSet.has (capture : CaptureSet) : Root → Bool
  | .input => capture.input
  | .output => capture.output
  | .error => capture.error
  | .caller => capture.caller
  | .metadata => capture.metadata
  | .element => false

def Needs.has (needs : Needs) : Root → Bool
  | .input => needs.input
  | .output => needs.output
  | .error => needs.error
  | .caller => needs.caller
  | .metadata => needs.metadata
  | .element => false

def Deliver.has : Deliver → Root → Bool
  | .input, .input | .output, .output => true
  | _, _ => false

/-- An observer needs what its filter reads, what it captures and what it delivers. -/
def Observer.needs (observer : Observer ft) (r : Root) : Bool :=
  observer.filter.roots.has r || observer.capture.has r || observer.deliver.has r

theorem Needs.has_add (needs : Needs) (observer : Observer ft) (r : Root) :
    (needs.add observer).has r = (needs.has r || observer.needs r) := by
  cases r <;> cases h : observer.deliver <;>
    simp [Needs.add, Needs.has, Observer.needs, Roots.has, CaptureSet.has, Deliver.has, h]

/-- The union over the observers. -/
theorem Needs.has_of (observers : List (Observer ft)) (r : Root) :
    (Needs.of observers).has r = observers.any fun observer => observer.needs r := by
  have hfold : ∀ needs : Needs, (observers.foldl Needs.add needs).has r =
      (needs.has r || observers.any fun observer => observer.needs r) := by
    induction observers with
    | nil => simp
    | cons o rest ih =>
      intro needs
      rw [List.foldl_cons, ih, Needs.has_add, List.any_cons, Bool.or_assoc]
  refine (hfold {}).trans ?_
  cases r <;> rfl

/-- What is kept under a root is all or nothing. -/
theorem root_evaluated (needs : Needs) (inv : Invocation) (r : Root) :
    (evaluated needs inv).doc.root none r = if needs.has r then (evaluated .all inv).doc.root none r else none := by
  obtain ⟨input, output, error, caller, metadata⟩ := needs
  obtain ⟨_, _, _, _, _, _, result, _, _, _⟩ := inv
  cases r with
  | input => cases input <;> rfl
  | output => cases result <;> cases output <;> rfl
  | error => cases result <;> cases error <;> rfl
  | caller => cases caller <;> rfl
  | metadata => cases metadata <;> rfl
  | element => rfl

theorem success_evaluated (needs : Needs) (inv : Invocation) :
    (evaluated needs inv).success = (evaluated .all inv).success := by
  obtain ⟨_, _, _, _, _, _, result, _, _, _⟩ := inv
  cases result <;> rfl

/-! ### The view of one observer -/

section View
variable {observers : List (Observer ft)} {observer : Observer ft}

/-- Whatever an observer of the set needs is kept. -/
theorem root_kept (h : observer ∈ observers) {r : Root} (hr : observer.needs r = true) (inv : Invocation) :
    (evaluated (.of observers) inv).doc.root none r = (evaluated .all inv).doc.root none r := by
  have hneeds : (Needs.of observers).has r = true := by
    rw [Needs.has_of]
    exact List.any_eq_true.mpr ⟨observer, h, hr⟩
  rw [root_evaluated, if_pos hneeds]

theorem matches_kept (h : observer ∈ observers) (inv : Invocation) :
    observer.matches (evaluated (.of observers) inv) = observer.matches (evaluated .all inv) := by
  obtain ⟨src, hsrc⟩ := observer.compiled
  have hfilter : observer.filter.matches (evaluated (.of observers) inv).doc =
      observer.filter.matches (evaluated .all inv).doc :=
    Filter.matches_agree (Filter.of_parse ft hsrc) fun r hr => root_kept h (by simp [Observer.needs, hr]) inv
  rw [Observer.matches, Observer.matches, hfilter, success_evaluated]

theorem capturePart_congr (e : List (String × Value)) {wanted : Bool} (key : String) {v v' : Option Value}
    (h : wanted = true → v = v') : capturePart e wanted key v = capturePart e wanted key v' := by
  cases wanted with
  | false => rfl
  | true => rw [h rfl]

/-- An observer sees of a call what it captures or delivers. -/
theorem project_congr {a b : Completed} (hcalls : a.functionId = b.functionId ∧ a.namespaceId = b.namespaceId ∧
      a.invocationId = b.invocationId ∧ a.startedAtMs = b.startedAtMs ∧ a.durationMs = b.durationMs)
    (hsuccess : a.success = b.success)
    (hroot : ∀ r, observer.needs r = true → a.doc.root none r = b.doc.root none r) (activationId : String) :
    project observer a activationId = project observer b activationId := by
  obtain ⟨hfunction, hnamespace, hinvocation, hstarted, hduration⟩ := hcalls
  have hcapture : ∀ r, observer.capture.has r = true → a.doc.root none r = b.doc.root none r :=
    fun r hr => hroot r (by simp [Observer.needs, hr])
  have henvelope : envelope observer a activationId = envelope observer b activationId := by
    rw [envelope, envelope, hfunction, hnamespace, hinvocation, hsuccess]
  unfold project
  cases hdeliver : observer.deliver with
  | input => exact congrArg shipped (hroot .input (by simp [Observer.needs, hdeliver, Deliver.has]))
  | output => exact congrArg shipped (hroot .output (by simp [Observer.needs, hdeliver, Deliver.has]))
  | envelope | unknown =>
    have hinput : observer.capture.input = true → a.input = b.input := hcapture .input
    have herror : observer.capture.error = true → a.error = b.error := hcapture .error
    have hcaller : observer.capture.caller = true → a.caller = b.caller := hcapture .caller
    have hmetadata : observer.capture.metadata = true → a.metadata = b.metadata := hcapture .metadata
    have houtput : observer.capture.output = true → a.output = b.output := hcapture .output
    dsimp only
    rw [henvelope, capturePart_congr _ _ hinput, capturePart_congr _ _ herror, capturePart_congr _ _ hcaller,
      capturePart_congr _ _ hmetadata, hsuccess, hstarted, hduration]
    cases hwanted : observer.capture.output with
    | false => simp
    | true => rw [houtput hwanted]

end View

end Iii.Dispatch.Payload
