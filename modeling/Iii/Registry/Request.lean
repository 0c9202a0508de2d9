import Iii.Dispatch.Payload
import Iii.Registry.Place

/-! An `observe` as its worker sent it, and the spec that a replay is compared on (`observer/registry.rs`,
`observer/lifecycle.rs`).

The spec has the defaults filled in, the namespaces resolved and the filters normalized. It is made from the request
and the configuration in force, and the captures that the engine does not know are not in it. -/
namespace Iii.Registry
open Iii.Dispatch (On)
open Iii.Dispatch.Payload (Deliver CaptureSet)
open Iii.Owner (Conn FnKey)
open Hooks (ErrorBody)

inductive Capture where
  | input | output | error | caller | metadata
  | unknown (capture : String)
deriving DecidableEq

structure ObserveSource where
  functionId : String
  ns : Option String
  args : Option Value
  filters : Option Value
  capture : Option (List Capture)
  on : Option On
  deliver : Option Deliver

structure ObserveTarget where
  functionId : String
  ns : Option String

structure ObserveRequest where
  id : String
  source : ObserveSource
  target : ObserveTarget
  metadata : Option Value
  maxFires : Option Nat
  expiresInMs : Option Nat
  maxInFlight : Option Nat

/-! ### Values that are compared -/

/-- Numbers as `Value: PartialEq` compares them: of a double, the value. -/
inductive Compared where
  | posInt (u : Fin (2 ^ 64))
  | negInt (m : Fin (2 ^ 63))
  | float (value : Int)
deriving DecidableEq

def compared : Number → Compared
  | .posInt u => .posInt u
  | .negInt m => .negInt m
  | .float f => .float f.value

abbrev ComparedValue := Json String Compared

def comparedValue (v : Value) : ComparedValue := v.map id compared

/-! ### Captures -/

def defaultCapture : List Capture := [.input, .output, .caller]

def captureSet (list : List Capture) : CaptureSet :=
  { input := .input ∈ list
    output := .output ∈ list
    error := .error ∈ list
    caller := .caller ∈ list
    metadata := .metadata ∈ list }

def captureList (set : CaptureSet) : List Capture :=
  [(set.input, .input), (set.output, .output), (set.error, .error), (set.caller, .caller),
    (set.metadata, .metadata)].filterMap fun (on, capture) => if on then some capture else none

def unknownCapture : Capture → Option String
  | .unknown capture => some capture
  | _ => none

def unknownOn : On → Option String
  | .unknown on => some on
  | _ => none

def unknownDeliver : Deliver → Option String
  | .unknown deliver => some deliver
  | _ => none

/-! ### The spec -/

structure ObserveSpec where
  function : FnKey
  target : FnKey
  args : ComparedValue
  filters : ComparedValue
  capture : List Capture
  on : On
  deliver : Deliver
  metadata : Option ComparedValue
  maxFires : Option Nat
  expiresInMs : Option Nat
  maxInFlight : Nat
deriving DecidableEq

def resolve (ns : Option String) : String := ns.getD "default"

namespace ObserveRequest

def function (R : ObserveRequest) : FnKey := (resolve R.source.ns, R.source.functionId)

def targetKey (R : ObserveRequest) : FnKey := (resolve R.target.ns, R.target.functionId)

/-- `null` is no args. -/
def args (R : ObserveRequest) : Value :=
  match R.source.args with
  | none | some .null => .object []
  | some args => args

/-- Filters that are no filter stay as they are: a new request with them is refused later. -/
def filters (ft : FloatText) (R : ObserveRequest) : Value :=
  match R.source.filters with
  | none => .object []
  | some src =>
    match Filter.parse ft src with
    | .ok filter => filter.normalized
    | .error _ => src

def capture (R : ObserveRequest) : List Capture := R.source.capture.getD defaultCapture

def spec (ft : FloatText) (R : ObserveRequest) (defaultMaxInFlight : Nat) : ObserveSpec :=
  { function := R.function
    target := R.targetKey
    args := comparedValue R.args
    filters := comparedValue (R.filters ft)
    capture := captureList (captureSet R.capture)
    on := R.source.on.getD .success
    deliver := R.source.deliver.getD .envelope
    metadata := R.metadata.map comparedValue
    maxFires := R.maxFires
    expiresInMs := R.expiresInMs
    maxInFlight := R.maxInFlight.getD defaultMaxInFlight }

end ObserveRequest

/-! ### The checks of a new request -/

def unsupported (field value : String) : ErrorBody :=
  ⟨"UNSUPPORTED", s!"`{field}` value `{value}` is not supported by this engine"⟩

/-- What is checked of the request itself. -/
def ObserveRequest.check (R : ObserveRequest) : Option ErrorBody :=
  ([("source.function_id", R.source.functionId), ("target.function_id", R.target.functionId)].findSome?
      fun (field, function) =>
        if isBlank function then some ⟨"INVALID_ARGS", s!"`{field}` is empty"⟩ else none)
  |>.or ([("source.namespace", R.source.ns), ("target.namespace", R.target.ns)].findSome?
      fun (field, ns) =>
        if ns.any isBlank then
          some ⟨"INVALID_NAMESPACE", s!"`{field}` is empty: name a namespace, or omit it to use `default`"⟩
        else none)
  |>.or ((R.source.on.bind unknownOn).map (unsupported "source.on"))
  |>.or ((R.source.deliver.bind unknownDeliver).map (unsupported "source.deliver"))
  |>.or (((R.source.capture.getD []).findSome? unknownCapture).map (unsupported "source.capture"))
  |>.or ([("max_fires", R.maxFires), ("expires_in_ms", R.expiresInMs), ("max_in_flight", R.maxInFlight)].findSome?
      fun (field, value) =>
        if value = some 0 then some ⟨"INVALID_ARGS", s!"`{field}` must be at least 1, or omitted"⟩ else none)

/-- `rest` is what the registration hook, the session's rights and the function's registration make of it. -/
def ObserveRequest.checked (R : ObserveRequest) (rest : Except ErrorBody Checked) : Except ErrorBody Checked :=
  match R.check with
  | some error => .error error
  | none => rest

def ObserveRequest.toRequest (ft : FloatText) (R : ObserveRequest) : Request ObserveSpec :=
  { id := R.id
    spec := R.spec ft
    maxFires := R.maxFires
    expiresInMs := R.expiresInMs
    maxInFlight := R.maxInFlight }

end Iii.Registry
