import Mathlib.Algebra.Ring.Nat
import Iii.Lib.Assoc
import Iii.Lib.Machine
import Mathlib.Data.List.Sort

/-! The report buffer of the SDK (`sdk/packages/rust/iii/src/reporter.rs`).

Items wait in `items`, or parked while their function is not confirmed on the connection. A flush
takes what waits, asks the gate for each function outside the lock, and settles what it took in a
last section; the frames it makes are written in their order, or read back when the next
connection starts.

The gate is `flush_reports` (`dispatch.rs`): a function passes once the `unpark` of its
confirmation on the connection has run, and is held only while it is not confirmed. -/
namespace Iii.Reporter
open Lib

structure CaptureMask where
  input : Bool
  output : Bool
  error : Bool
  caller : Bool
  metadata : Bool
deriving DecidableEq

def CaptureMask.union (a b : CaptureMask) : CaptureMask where
  input := a.input || b.input
  output := a.output || b.output
  error := a.error || b.error
  caller := a.caller || b.caller
  metadata := a.metadata || b.metadata

structure ParentCaller where
  workerId : Option String
  workerName : Option String
  functionId : Option String
  invocationId : Option String
deriving DecidableEq

structure Caller extends ParentCaller where
  parent : Option ParentCaller
deriving DecidableEq

/-- `PendingItem`: the parts are texts of JSON already, and `rest` is what only the encoder reads. -/
structure Item (B : Type) where
  functionId : String
  ns : Option String
  invocationId : String
  matched : List String
  input : Option String
  output : Option String
  error : Option String
  caller : Option Caller
  metadata : Option String
  observeDepth : Nat
  traceparent : Option String
  baggage : Option String
  rest : B
  mask : CaptureMask
  emitted : Bool
  seq : Nat

/-- The encoder: the length of `to_json`, and a part that is read back and written again. -/
structure Wire (B : Type) where
  json : Item B → Nat
  reread : String → Option String

structure Limits where
  maxItems : Nat
  maxBytes : Nat
  batchItems : Nat
  frameBytes : Nat

/-- The lengths of `FRAME_PREFIX` and `FRAME_SUFFIX`. -/
def frameOpen : Nat := 39

def frameClose : Nat := 2

def itemOverhead : Nat := 256

def maxDropKeys : Nat := 1024

namespace Item
variable {B : Type}

def text (value : Option String) : Nat := value.elim 0 (·.utf8ByteSize)

def ids (p : ParentCaller) : Nat := text p.workerId + text p.workerName + text p.functionId + text p.invocationId

def listed (matched : List String) : Nat := (matched.map (·.utf8ByteSize + 3)).sum

def estimatedSize (item : Item B) : Nat :=
  itemOverhead + item.functionId.utf8ByteSize + text item.ns + item.invocationId.utf8ByteSize
    + listed item.matched + text item.input + text item.output + text item.error + text item.metadata
    + item.caller.elim 0 (fun c => ids c.toParentCaller + c.parent.elim 0 (ids · + 96) + 96)
    + text item.traceparent + text item.baggage

/-- Whether `other`, an emit of the same event, joins the item. -/
def sameEvent (item other : Item B) : Bool :=
  item.emitted && other.emitted && item.functionId == other.functionId && item.ns == other.ns
    && item.observeDepth == other.observeDepth && item.input == other.input
    && item.metadata == other.metadata && item.caller == other.caller
    && !other.matched.any (item.matched.contains ·)

def join (item other : Item B) : Item B :=
  { item with matched := item.matched ++ other.matched, mask := item.mask.union other.mask }

/-- `from_observed`: what an item's frame carries of it. -/
def readBack (J : Wire B) (item : Item B) : Item B :=
  { item with
    input := if item.mask.input then item.input.bind J.reread else none
    output := if item.mask.output then item.output.bind J.reread else none
    error := if item.mask.error then item.error.bind J.reread else none
    caller := if item.mask.caller then item.caller else none
    metadata := if item.mask.metadata then item.metadata.bind J.reread else none
    mask := { input := true, output := true, error := true, caller := true, metadata := true }
    emitted := false }

end Item

inductive Gate where
  | send | hold | drop
deriving DecidableEq

inductive Reason where
  | bufferFull | tooLarge | inactive
deriving DecidableEq

structure Fates where
  released : Nat
  unparked : Nat
deriving DecidableEq

structure Frame (B : Type) where
  items : List (Item B)
  bytes : Nat

/-- `take_report_frames` between its first and its last section. -/
structure Flush (B : Type) where
  since : Nat
  taken : List (Item B)
  gates : List (String × Gate)
  sendable : List (Item B)
  held : List (Item B)
  dropped : List (Item B)

abbrev DropKey := String × Reason

/-- The buffer, the flush that is running, the frames that are not written yet and those that are.
`ready` says which functions the gate lets through. `tally` has every drop, with the item's `seq`
if it had got one and the counter it went to; `short` remembers a subtraction that was not exact. -/
structure State (B : Type) where
  items : List (Item B)
  parked : List (String × List (Item B))
  count : Nat
  bytes : Nat
  drops : List (DropKey × Nat)
  exported : DropKey → Nat
  fates : List (String × Fates)
  fateSeq : Nat
  taking : Bool
  nextSeq : Nat
  closed : Bool
  inFlight : Nat
  flush : Option (Flush B)
  outbox : List (Frame B)
  written : List (Item B)
  ready : String → Bool
  linked : Bool
  tally : List (Option Nat × DropKey)
  short : Bool

def State.start {B : Type} : State B where
  items := []
  parked := []
  count := 0
  bytes := 0
  drops := []
  exported := fun _ => 0
  fates := []
  fateSeq := 0
  taking := false
  nextSeq := 0
  closed := false
  inFlight := 0
  flush := none
  outbox := []
  written := []
  ready := fun _ => false
  linked := false
  tally := []
  short := false

section
variable {B : Type}

/-- `merge_in`; both lists are in order, so `partition_point` is where the older items end. -/
def mergeIn (items incoming : List (Item B)) : List (Item B) :=
  match incoming.head?, incoming.getLast? with
  | some first, some last =>
    if items.getLast?.all (fun newest => newest.seq ≤ first.seq) then items ++ incoming
    else if items.head?.any (fun oldest => last.seq < oldest.seq) then incoming ++ items
    else
      items.takeWhile (fun item => item.seq ≤ first.seq) ++
        List.merge (items.dropWhile fun item => item.seq ≤ first.seq) incoming fun a b => a.seq ≤ b.seq
  | _, _ => items

def insertInOrder (list : List (Item B)) (item : Item B) : List (Item B) :=
  list.takeWhile (fun other => other.seq ≤ item.seq) ++ item :: list.dropWhile fun other => other.seq ≤ item.seq

def largestItem (L : Limits) : Nat := min (L.frameBytes - frameOpen - frameClose) L.maxBytes

/-- The frames of a flush: `cur` is the one that is being filled, `len` bytes long. -/
def fill (J : Wire B) (L : Limits) (cur : List (Item B)) (len : Nat) : List (Item B) → List (Frame B)
  | [] => if cur.isEmpty then [] else [{ items := cur, bytes := len + frameClose }]
  | item :: rest =>
    if largestItem L < J.json item then fill J L cur len rest
    else if !cur.isEmpty && (cur.length == L.batchItems || L.frameBytes < len + 1 + J.json item + frameClose) then
      { items := cur, bytes := len + frameClose } :: fill J L [item] (frameOpen + J.json item) rest
    else fill J L (cur ++ [item]) (if cur.isEmpty then frameOpen + J.json item else len + 1 + J.json item) rest

def frames (J : Wire B) (L : Limits) (sendable : List (Item B)) : List (Frame B) := fill J L [] 0 sendable

/-- The items of a flush that no frame takes. -/
def tooLarge (J : Wire B) (L : Limits) (sendable : List (Item B)) : List (Item B) :=
  sendable.filter fun item => largestItem L < J.json item

end

namespace State
variable {B : Type}

/-- Drops of one function for one reason. -/
def tallied (s : State B) (functionId : String) (reason : Reason) (seqs : List (Option Nat)) : State B :=
  let key : DropKey :=
    if s.drops.length < maxDropKeys || (Assoc.get? s.drops (functionId, reason)).isSome then (functionId, reason)
    else ("*", reason)
  { s with drops := Assoc.insert s.drops key ((Assoc.get? s.drops key).getD 0 + seqs.length)
           tally := seqs.map (·, key) ++ s.tally }

/-- Items leave the buffer. -/
def less (s : State B) (count bytes : Nat) : State B :=
  { s with count := s.count - count, bytes := s.bytes - bytes
           short := s.short || decide (s.count < count) || decide (s.bytes < bytes) }

/-- A frame's lease is dropped. -/
def unlease (s : State B) (bytes : Nat) : State B :=
  { s with inFlight := s.inFlight - bytes, short := s.short || decide (s.inFlight < bytes) }

def record (s : State B) (functionId : String) (f : Nat → Fates → Fates) : State B :=
  if s.taking then
    { s with fateSeq := s.fateSeq + 1
             fates := Assoc.insert s.fates functionId
               (f (s.fateSeq + 1) ((Assoc.get? s.fates functionId).getD ⟨0, 0⟩)) }
  else s

def recordUnparked (s : State B) (functionId : String) : State B :=
  s.record functionId fun seq fates => { fates with unparked := seq }

def recordReleased (s : State B) (functionId : String) : State B :=
  s.record functionId fun seq fates => { fates with released := seq }

def full (L : Limits) (s : State B) (size : Nat) : Bool :=
  L.maxItems ≤ s.count || L.maxBytes < s.bytes + s.inFlight + size

/-- The last item, when an emit of the same event joins it. -/
def joins (s : State B) (item : Item B) : Option (Item B) :=
  if item.emitted then s.items.getLast?.filter (·.sameEvent item) else none

def push (L : Limits) (s : State B) (item : Item B) : State B :=
  let size := item.estimatedSize
  if largestItem L < size then s.tallied item.functionId .tooLarge [none]
  else if s.closed then s.tallied item.functionId .inactive [none]
  else
    match s.joins item with
    | some last =>
      { s with items := s.items.dropLast ++ [last.join item], bytes := s.bytes + Item.listed item.matched }
    | none =>
      if s.full L size then s.tallied item.functionId .bufferFull [none]
      else
        { s with items := s.items ++ [{ item with seq := s.nextSeq + 1 }], nextSeq := s.nextSeq + 1
                 bytes := s.bytes + size, count := s.count + 1 }

def release (s : State B) (functionId : String) (items : List (Item B)) : State B :=
  if items.isEmpty then s
  else
    (s.less items.length (items.map (·.estimatedSize)).sum).tallied functionId .inactive (items.map (some ·.seq))

def unpark (s : State B) (functionId : String) : State B :=
  let s := s.recordUnparked functionId
  match Assoc.get? s.parked functionId with
  | none => s
  | some items => { s with parked := Assoc.erase s.parked functionId, items := mergeIn s.items items }

def discard (s : State B) (functionId : String) : State B :=
  let s := s.recordReleased functionId
  let dropped := (Assoc.get? s.parked functionId).getD [] ++ s.items.filter (·.functionId = functionId)
  { s with parked := Assoc.erase s.parked functionId
           items := s.items.filter (·.functionId ≠ functionId) }.release functionId dropped

/-- `expire_parked`, the functions it found too old. -/
def expireParked (s : State B) : List String → State B
  | [] => s
  | functionId :: rest =>
    match Assoc.get? s.parked functionId with
    | none => s.expireParked rest
    | some items =>
      (({ s with parked := Assoc.erase s.parked functionId }.recordReleased functionId).release
        functionId items).expireParked rest

def releaseParked (s : State B) : List (String × List (Item B)) → State B
  | [] => s
  | (functionId, items) :: rest => (s.release functionId items).releaseParked rest

def releaseItems (s : State B) : List (Item B) → State B
  | [] => s
  | item :: rest => (s.release item.functionId [item]).releaseItems rest

def close (s : State B) : State B :=
  ({ s with closed := true, items := [], parked := [] }.releaseItems s.items).releaseParked s.parked

/-- Buffered items newer than `item` make room for it. -/
def makeRoom (L : Limits) (item : Item B) : Nat → State B → State B
  | 0, s => s
  | n + 1, s =>
    if s.full L item.estimatedSize then
      match s.items.getLast? with
      | some newest =>
        if item.seq < newest.seq then
          makeRoom L item n (({ s with items := s.items.dropLast }.less 1 newest.estimatedSize).tallied
            newest.functionId .bufferFull [some newest.seq])
        else s
      | none => s
    else s

/-- The items that are requeued, oldest first, and those that found room. -/
def requeue (L : Limits) (s : State B) : List (Item B) → State B × List (Item B)
  | [] => (s, [])
  | item :: rest =>
    let s := makeRoom L item s.items.length s
    if s.full L item.estimatedSize then
      (s.tallied item.functionId .bufferFull [some item.seq]).requeue L rest
    else
      let (s, requeued) :=
        { s with bytes := s.bytes + item.estimatedSize, count := s.count + 1 }.requeue L rest
      (s, item :: requeued)

def dropItems (s : State B) (reason : Reason) : List (Item B) → State B
  | [] => s
  | item :: rest => (s.tallied item.functionId reason [some item.seq]).dropItems reason rest

def requeueFrames (L : Limits) (s : State B) (items : List (Item B)) : State B :=
  let items := items.insertionSort fun a b => a.seq ≤ b.seq
  if s.closed then s.dropItems .inactive items
  else
    let (s, requeued) := s.requeue L items
    { s with items := mergeIn s.items requeued }

/-- The first section of a flush. -/
def take (s : State B) : State B :=
  { s with items := [], fates := [], taking := true
           flush := some { since := s.fateSeq, taken := s.items, gates := [], sendable := [], held := []
                           dropped := [] } }

def fatesOf (s : State B) (functionId : String) : Fates := (Assoc.get? s.fates functionId).getD ⟨0, 0⟩

/-- What the gate may answer. -/
def mayAnswer (s : State B) (f : Flush B) (functionId : String) : Gate → Bool
  | .send => s.ready functionId
  | .hold => !s.ready functionId || decide (f.since < (s.fatesOf functionId).unparked)
  | .drop => true

/-- The next item of a flush goes where its function's gate says. -/
def Flush.sort (f : Flush B) (item : Item B) (rest : List (Item B)) : Gate → Flush B
  | .send => { f with taken := rest, sendable := f.sendable ++ [item] }
  | .hold => { f with taken := rest, held := f.held ++ [item] }
  | .drop => { f with taken := rest, dropped := f.dropped ++ [item] }

def gate (s : State B) (answer : Gate) : Option (State B) :=
  match s.flush with
  | none => none
  | some f =>
    match f.taken with
    | [] => none
    | item :: rest =>
      match Assoc.get? f.gates item.functionId with
      | some cached => some { s with flush := some (Flush.sort f item rest cached) }
      | none =>
        if s.mayAnswer f item.functionId answer then
          let f := { f with gates := Assoc.insert f.gates item.functionId answer }
          some { s with flush := some (Flush.sort f item rest answer) }
        else none

/-- The held items of a flush; `requeued` are those whose function was confirmed meanwhile. -/
def settle (s : State B) (since : Nat) : List (Item B) → State B × List (Item B)
  | [] => (s, [])
  | item :: rest =>
    let fates := s.fatesOf item.functionId
    if s.closed || since < fates.released then (s.release item.functionId [item]).settle since rest
    else if since < fates.unparked then
      let (s, requeued) := s.settle since rest
      (s, item :: requeued)
    else
      let parked := (Assoc.get? s.parked item.functionId).getD []
      { s with parked := Assoc.insert s.parked item.functionId (insertInOrder parked item) }.settle since rest

/-- The last section of a flush. -/
def endFlush (J : Wire B) (L : Limits) (s : State B) (f : Flush B) : State B :=
  let gone := f.sendable ++ f.dropped
  let s := { s with flush := none }.less gone.length (gone.map Item.estimatedSize).sum
  let (s, requeued) := s.settle f.since f.held
  let s := { s with fates := [], taking := false, items := mergeIn s.items requeued }
  let s := (s.dropItems .inactive f.dropped).dropItems .tooLarge (tooLarge J L f.sendable)
  let out := frames J L f.sendable
  { s with inFlight := s.inFlight + (out.map Frame.bytes).sum, outbox := s.outbox ++ out }

/-- The connection starts: what was not written comes back. -/
def connect (J : Wire B) (L : Limits) (s : State B) : State B :=
  let s' := { s with outbox := [], ready := fun _ => false, linked := true }.unlease (s.outbox.map Frame.bytes).sum
  s'.requeueFrames L ((s.outbox.flatMap Frame.items).map (Item.readBack J))

end State

inductive Act (B : Type) where
  | push (item : Item B)
  /-- The function is confirmed, on this connection or (late) on one before it. -/
  | unpark (functionId : String) (current : Bool)
  /-- The function is revoked: the gate no longer lets it through. -/
  | unready (functionId : String)
  | discard (functionId : String)
  | expireParked (expired : List String)
  | close
  | takeDrops
  | take
  | gate (answer : Gate)
  | endFlush
  | write
  | disconnect
  | connect

namespace State
variable {B : Type}

def step (J : Wire B) (L : Limits) (s : State B) : Act B → Option (State B)
  | .push item => some (s.push L item)
  | .unpark functionId current =>
    if current && !s.linked then none
    else
      let s := s.unpark functionId
      some { s with ready := Function.update s.ready functionId current }
  | .unready functionId => some { s with ready := Function.update s.ready functionId false }
  | .discard functionId => some (s.discard functionId)
  | .expireParked expired => some (s.expireParked expired)
  | .close => some s.close
  | .takeDrops =>
    some { s with drops := [], exported := fun key => s.exported key + (Assoc.get? s.drops key).getD 0 }
  | .take => if s.flush.isNone && !s.items.isEmpty then some s.take else none
  | .gate answer => s.gate answer
  | .endFlush =>
    match s.flush with
    | some f => if f.taken.isEmpty then some (s.endFlush J L f) else none
    | none => none
  | .write =>
    match s.outbox with
    | frame :: rest =>
      if s.linked then some (unlease { s with outbox := rest, written := s.written ++ frame.items } frame.bytes)
      else none
    | [] => none
  | .disconnect => some { s with linked := false, ready := fun _ => false }
  | .connect => if s.flush.isNone && !s.linked then some (s.connect J L) else none

/-- What a step can do. -/
inductive Effect (J : Wire B) (L : Limits) (s : State B) : Act B → State B → Prop where
  | push (item : Item B) : Effect J L s (.push item) (s.push L item)
  | unpark (functionId : String) (current : Bool) (hlinked : current = true → s.linked = true) :
      Effect J L s (.unpark functionId current)
        { s.unpark functionId with ready := Function.update (s.unpark functionId).ready functionId current }
  | unready (functionId : String) :
      Effect J L s (.unready functionId) { s with ready := Function.update s.ready functionId false }
  | discard (functionId : String) : Effect J L s (.discard functionId) (s.discard functionId)
  | expireParked (expired : List String) : Effect J L s (.expireParked expired) (s.expireParked expired)
  | close : Effect J L s .close s.close
  | takeDrops :
      Effect J L s .takeDrops
        { s with drops := [], exported := fun key => s.exported key + (Assoc.get? s.drops key).getD 0 }
  | take (hidle : s.flush = none) : Effect J L s .take s.take
  /-- The gate was asked for the function before. -/
  | cached {f : Flush B} {item : Item B} {rest : List (Item B)} {answer cached : Gate} (hflush : s.flush = some f)
      (htaken : f.taken = item :: rest) (hcached : Assoc.get? f.gates item.functionId = some cached) :
      Effect J L s (.gate answer) { s with flush := some (Flush.sort f item rest cached) }
  | asked {f : Flush B} {item : Item B} {rest : List (Item B)} {answer : Gate} (hflush : s.flush = some f)
      (htaken : f.taken = item :: rest) (hnew : Assoc.get? f.gates item.functionId = none)
      (hmay : s.mayAnswer f item.functionId answer = true) :
      Effect J L s (.gate answer)
        { s with
          flush := some (Flush.sort { f with gates := Assoc.insert f.gates item.functionId answer } item rest answer) }
  | endFlush {f : Flush B} (hflush : s.flush = some f) (htaken : f.taken = []) :
      Effect J L s .endFlush (s.endFlush J L f)
  | write {frame : Frame B} {rest : List (Frame B)} (houtbox : s.outbox = frame :: rest) :
      Effect J L s .write (unlease { s with outbox := rest, written := s.written ++ frame.items } frame.bytes)
  | disconnect : Effect J L s .disconnect { s with linked := false, ready := fun _ => false }
  | connect (hidle : s.flush = none) : Effect J L s .connect (s.connect J L)

theorem effect_of_step {J : Wire B} {L : Limits} {s s' : State B} {a : Act B} (h : s.step J L a = some s') :
    Effect J L s a s' := by
  cases a with
  | push item =>
    cases h
    exact .push item
  | unpark functionId current =>
    simp only [step] at h
    split at h
    · cases h
    · rename_i hguard
      cases h
      exact .unpark functionId current (by simp_all)
  | unready functionId =>
    cases h
    exact .unready functionId
  | discard functionId =>
    cases h
    exact .discard functionId
  | expireParked expired =>
    cases h
    exact .expireParked expired
  | close =>
    cases h
    exact .close
  | takeDrops =>
    cases h
    exact .takeDrops
  | take =>
    simp only [step] at h
    split at h
    · rename_i hguard
      cases h
      exact .take (by simp_all)
    · cases h
  | gate answer =>
    simp only [step, gate] at h
    split at h
    · cases h
    · rename_i f hflush
      split at h
      · cases h
      · rename_i item rest htaken
        split at h
        · rename_i cached hcached
          cases h
          exact .cached hflush htaken hcached
        · rename_i hnew
          split at h
          · rename_i hmay
            cases h
            exact .asked hflush htaken hnew hmay
          · cases h
  | endFlush =>
    simp only [step] at h
    split at h
    · rename_i f hflush
      split at h
      · rename_i htaken
        cases h
        exact .endFlush hflush (List.isEmpty_iff.mp htaken)
      · cases h
    · cases h
  | write =>
    simp only [step] at h
    split at h
    · rename_i frame rest houtbox
      split at h
      · cases h
        exact .write houtbox
      · cases h
    · cases h
  | disconnect =>
    cases h
    exact .disconnect
  | connect =>
    simp only [step] at h
    split at h
    · rename_i hguard
      cases h
      exact .connect (by simp_all)
    · cases h

end State

def machine {B : Type} (J : Wire B) (L : Limits) : Machine (State B) (Act B) Unit where
  Step := fun s a _ s' => s.step J L a = some s'

end Iii.Reporter
