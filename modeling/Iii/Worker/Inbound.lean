import Mathlib.Algebra.Ring.Nat
import Iii.Worker.Frame

/-! The engine's half of a worker's connection: `InboundReader`.

The reader takes bytes in whatever pieces the socket gives them and hands out messages and
control frames. A message over its limit is read to its end with only its edges kept. The
header parser is not the engine's own and is a parameter here; capacities are left out. -/
namespace Iii.Worker

inductive ProtocolError where
  | nonZeroReservedBits
  | unmaskedFrameFromClient
  | fragmentedControlFrame
  | controlFrameTooBig
  | unexpectedContinueFrame
  | expectedFragment (data : Data)
  | invalidOpcode (code : Nat)
  | invalidCloseSequence
  | resetWithoutClosingHandshake
deriving DecidableEq, Repr

/-- `unreachable` is not an error of the reader: it stands for an `expect` that fails and for
a loop that does not end. -/
inductive Error where
  | protocol (error : ProtocolError)
  | utf8
  | io
  | unreachable
deriving DecidableEq, Repr

/-- `FrameHeader::parse` on the bytes at hand: the header, the length of the payload and how
far the cursor moved, or nothing while the header is not complete. -/
abbrev HeaderParser := List Byte → Except Error (Option (FrameHeader × Nat × Nat))

/-- What is asked of `FrameHeader::parse`: it reads the headers of RFC 6455 and waits for
the rest of a header that is cut. It may refuse a reserved opcode. -/
structure ReadsHeaders (parse : HeaderParser) : Prop where
  whole : ∀ (h : FrameHeader) (len : Nat) (tail : List Byte), len < 2 ^ 63 →
    parse (h.wire len ++ tail) = .ok (some (h, len, (h.wire len).length)) ∨
      (h.opcode.isReserved = true ∧
        parse (h.wire len ++ tail) = .error (.protocol (.invalidOpcode h.opcode.code)))
  cut : ∀ (h : FrameHeader) (len : Nat) (bytes missing : List Byte), len < 2 ^ 63 →
    missing ≠ [] → bytes ++ missing = h.wire len → parse bytes = .ok none

/-- The frame being read. -/
structure FrameState where
  opcode : OpCode
  isFinal : Bool
  mask : Mask
  len : Nat
  read : Nat
  control : List Byte
deriving DecidableEq

inductive Body where
  | kept (data : List Byte)
  | skipped (head tail : List Byte)
deriving DecidableEq, Repr

/-- The data message being read, from its first frame to its final one. Its size counts the
whole current frame. -/
structure MessageState where
  text : Bool
  size : Nat
  body : Body
deriving DecidableEq, Repr

/-- `buffer` is what is read and not consumed: the source's bytes from `pos` on. -/
structure Reader where
  limit : Nat
  buffer : List Byte
  frame : Option FrameState
  message : Option MessageState
  closed : Bool
  ended : Bool
deriving DecidableEq

def Reader.new (limit : Nat) : Reader :=
  { limit, buffer := [], frame := none, message := none, closed := false, ended := false }

/-! ### Unmasking -/

/-- `u32::from_ne_bytes`. Which byte is the low one cancels against `toNeBytes`. -/
def fromNeBytes (a b c d : Byte) : BitVec 32 :=
  d.toBitVec ++ c.toBitVec ++ b.toBitVec ++ a.toBitVec

def toNeBytes (word : BitVec 32) : List Byte :=
  [⟨word.extractLsb' 0 8⟩, ⟨word.extractLsb' 8 8⟩, ⟨word.extractLsb' 16 8⟩, ⟨word.extractLsb' 24 8⟩]

def unmaskWords (key : Mask) (word : BitVec 32) : List Byte → List Byte
  | a :: b :: c :: d :: rest => toNeBytes (fromNeBytes a b c d ^^^ word) ++ unmaskWords key word rest
  | rest => List.zipWith (· ^^^ ·) rest (List.ofFn key)

theorem neZero_four : NeZero 4 := inferInstance

/-- Unmasks `buf`, the payload bytes from `offset` on, a word at a time. -/
def unmask (buf : List Byte) (mask : Mask) (offset : Nat) : List Byte :=
  haveI := neZero_four
  let shift := offset % 4
  let key : Mask := fun index => mask (Fin.ofNat 4 (shift + index))
  unmaskWords key (fromNeBytes (key 0) (key 1) (key 2) (key 3)) buf

/-! ### Messages -/

namespace MessageState

/-- Over the limit: from now on, only the edges of the payload are kept. -/
def skip (m : MessageState) : MessageState :=
  match m.body with
  | .skipped _ _ => m
  | .kept data =>
    let head := data.take (min data.length edgeBytes)
    let rest := data.drop head.length
    { m with body := .skipped head (rest.drop (rest.length - edgeBytes)) }

def finish (m : MessageState) : Except Error Inbound :=
  match m.body with
  | .kept data =>
    if m.text then
      match utf8 data with
      | some text => .ok (.message (.text text))
      | none => .error .utf8
    else .ok (.message (.binary data))
  | .skipped head tail =>
    .ok (.oversized { size := m.size, head, tail := tail.drop (tail.length - edgeBytes) })

end MessageState

/-- What a chunk of a frame leaves in the tail: the frame's last `edgeBytes` can end up there,
and nothing before them. It is trimmed when it holds two edges. -/
def consumeTail (frame : FrameState) (offset : Nat) (chunk tail : List Byte) : List Byte :=
  let tailFrom := frame.len - edgeBytes
  let skip := min (tailFrom - offset) chunk.length
  let rest := chunk.drop skip
  if rest.isEmpty then tail else
    let tail := tail ++ unmask rest frame.mask (offset + skip)
    if 2 * edgeBytes < tail.length then tail.drop (tail.length - edgeBytes) else tail

/-- What a chunk of a frame leaves of a message over the limit. -/
def consumeSkipped (frame : FrameState) (offset : Nat) (chunk head tail : List Byte) : Body :=
  if head.length < edgeBytes then
    let take := min (edgeBytes - head.length) chunk.length
    .skipped (head ++ unmask (chunk.take take) frame.mask offset)
      (consumeTail frame (offset + take) (chunk.drop take) tail)
  else .skipped head (consumeTail frame offset chunk tail)

def Body.consume (frame : FrameState) (chunk : List Byte) : Body → Body
  | .kept data => .kept (data ++ unmask chunk frame.mask frame.read)
  | .skipped head tail => consumeSkipped frame frame.read chunk head tail

/-- Takes `chunk`, the next payload bytes of `frame`, still masked. A data frame without a
message is a panic. -/
def consume (frame : FrameState) (message : Option MessageState) (chunk : List Byte) :
    Option (FrameState × Option MessageState) :=
  let moved := { frame with read := frame.read + chunk.length }
  match frame.opcode with
  | .control _ =>
    some ({ moved with control := frame.control ++ unmask chunk frame.mask frame.read }, message)
  | .data _ =>
    match message with
    | none => none
    | some message => some (moved, some { message with body := message.body.consume frame chunk })

def closeFrame (payload : List Byte) : Except Error (Option CloseFrame) :=
  match payload with
  | [] => .ok none
  | [_] => .error (.protocol .invalidCloseSequence)
  | hi :: lo :: reason =>
    match utf8 reason with
    | some reason => .ok (some { code := 256 * hi.toNat + lo.toNat, reason })
    | none => .error .utf8

/-! ### Frames -/

/-- The message a data frame starts or goes on with. -/
def messageOf (data : Data) (message : Option MessageState) : Except Error MessageState :=
  match decide (data ≠ .continue), message with
  | false, none => .error (.protocol .unexpectedContinueFrame)
  | true, some _ => .error (.protocol (.expectedFragment data))
  | true, none => .ok { text := decide (data = .text), size := 0, body := .kept [] }
  | false, some message => .ok message

/-- Counts a frame of `len` bytes into its message. -/
def MessageState.grow (limit len : Nat) (message : MessageState) : MessageState :=
  let message := { message with size := min (message.size + len) maxU64 }
  if limit < message.size then message.skip else message

def startFrame (limit : Nat) (message : Option MessageState) (header : FrameHeader) (len : Nat) :
    Except Error (FrameState × Option MessageState) :=
  if header.rsv1 || header.rsv2 || header.rsv3 then .error (.protocol .nonZeroReservedBits) else
  match header.mask with
  | none => .error (.protocol .unmaskedFrameFromClient)
  | some mask =>
    let frame : FrameState :=
      { opcode := header.opcode, isFinal := header.isFinal, mask, len, read := 0, control := [] }
    match header.opcode with
    | .control _ =>
      if !header.isFinal then .error (.protocol .fragmentedControlFrame)
      else if maxControlPayload < len then .error (.protocol .controlFrameTooBig)
      else .ok (frame, message)
    | .data data =>
      match messageOf data message with
      | .error error => .error error
      | .ok message => .ok (frame, some (message.grow limit len))

def finishFrame (frame : FrameState) (message : Option MessageState) :
    Except Error (Option Inbound × Option MessageState) :=
  match frame.opcode with
  | .control .ping => .ok (some (.message (.ping frame.control)), message)
  | .control .pong => .ok (some (.message (.pong frame.control)), message)
  | .control .close =>
    match closeFrame frame.control with
    | .ok close => .ok (some (.message (.close close)), message)
    | .error error => .error error
  | .control (.reserved _) | .data (.reserved _) =>
    .error (.protocol (.invalidOpcode frame.opcode.code))
  | .data _ =>
    if !frame.isFinal then .ok (none, message) else
    match message with
    | none => .error .unreachable
    | some message =>
      match message.finish with
      | .ok inbound => .ok (some inbound, none)
      | .error error => .error error

/-! ### Reading -/

namespace Reader

/-- The frame being read: the one already started, or the next one once its header is whole. -/
def current (parse : HeaderParser) (r : Reader) : Except Error (Option (FrameState × Reader)) :=
  match r.frame with
  | some frame => .ok (some (frame, r))
  | none =>
    match parse r.buffer with
    | .error error => .error error
    | .ok none => .ok none
    | .ok (some (header, len, position)) =>
      match startFrame r.limit r.message header len with
      | .error error => .error error
      | .ok (frame, message) =>
        .ok (some (frame, { r with buffer := r.buffer.drop position, message }))

/-- Consumes what is buffered of `frame`. -/
def take (r : Reader) (frame : FrameState) : Option (FrameState × Reader) :=
  let available := min (frame.len - frame.read) r.buffer.length
  if 0 < available then
    (consume frame r.message (r.buffer.take available)).map fun (frame, message) =>
      (frame, { r with message, buffer := r.buffer.drop available })
  else some (frame, r)

/-- Consumes buffered bytes until a message or control frame is complete, or more bytes are
needed. Every frame but the last takes its header from the buffer, which bounds the loop. -/
def advanceLoop (parse : HeaderParser) : Nat → Reader → Except Error (Option Inbound) × Reader
  | 0, r => (.error .unreachable, r)
  | fuel + 1, r =>
    match r.current parse with
    | .error error => (.error error, r)
    | .ok none => (.ok none, r)
    | .ok (some (frame, r)) =>
      match r.take frame with
      | none => (.error .unreachable, r)
      | some (frame, r) =>
        if frame.read < frame.len then (.ok none, { r with frame := some frame }) else
        match finishFrame frame r.message with
        | .error error => (.error error, { r with frame := none })
        | .ok (some inbound, message) => (.ok (some inbound), { r with frame := none, message })
        | .ok (none, message) => advanceLoop parse fuel { r with frame := none, message }

def advance (parse : HeaderParser) (r : Reader) : Except Error (Option Inbound) × Reader :=
  r.advanceLoop parse (r.buffer.length + 1)

end Reader

/-- What one read of the socket gives. No bytes are the end of the stream. -/
inductive Read where
  | data (bytes : List Byte)
  | failed
deriving DecidableEq, Repr

/-- What a call of `next` comes to. -/
inductive Poll where
  | pending
  | ready (result : Option (Except Error Inbound))

namespace Reader

/-- The loop of `next`. It waits when the socket has nothing to read; the call may be dropped
then, and the reader goes on from where it was. -/
def nextLoop (parse : HeaderParser) (r : Reader) (reads : List Read) : Poll × Reader × List Read :=
  match r.advance parse with
  | (.ok (some inbound), r) =>
    (.ready (some (.ok inbound)), { r with closed := r.closed || inbound.isClose }, reads)
  | (.error error, r) => (.ready (some (.error error)), { r with ended := true }, reads)
  | (.ok none, r) =>
    match reads with
    | [] => (.pending, r, [])
    | .failed :: reads => (.ready (some (.error .io)), { r with ended := true }, reads)
    | .data [] :: reads =>
      let clean := r.closed && r.frame.isNone && r.buffer.isEmpty
      let r := { r with ended := true }
      if clean then (.ready none, r, reads)
      else (.ready (some (.error (.protocol .resetWithoutClosingHandshake))), r, reads)
    | .data (byte :: bytes) :: reads =>
      nextLoop parse { r with buffer := r.buffer ++ byte :: bytes } reads

/-- The next message or control frame, nothing once the connection has ended. -/
def next (parse : HeaderParser) (r : Reader) (reads : List Read) : Poll × Reader × List Read :=
  if r.ended then (.ready none, r, reads) else r.nextLoop parse reads

/-- What `n` calls of `next` come to. -/
def calls (parse : HeaderParser) : Nat → Reader → List Read → List Poll
  | 0, _, _ => []
  | n + 1, r, reads =>
    let (poll, r, reads) := r.next parse reads
    poll :: calls parse n r reads

end Reader

end Iii.Worker
