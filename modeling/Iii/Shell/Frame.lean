import Iii.Lib.Checks
import Iii.Worker.Header

/-! Frames of the shell channel (`iii-shell-proto`, `lib.rs`).

A frame is a length, a correlation id, a byte of flags and one JSON message; the length counts
what follows it. The reader asks a blocking source for bytes, which come in pieces of any size,
with interruptions between them, and reads the body as it arrives. `serde_json` is a parameter, and
so is how much `read_to_end` asks for at a time. -/
namespace Iii.Shell
open Lib
open Iii.Worker (Byte bigEndian fromBigEndian)

def frameHeaderSize : Nat := 5

def maxFrameSize : Nat := 4 * 1024 * 1024

inductive ShellCodecError where
  | invalidFrameLength (length : Nat)
  | serialize (message : String)
  | deserialize (message : String)
  | lengthMismatch (declared actual : Nat)
deriving DecidableEq

def ShellCodecError.toText : ShellCodecError → String
  | .invalidFrameLength length =>
    "frame length " ++ toString length ++ " out of range (must be " ++ toString frameHeaderSize ++ "..=" ++
      toString maxFrameSize ++ ")"
  | .serialize message => "json serialize: " ++ message
  | .deserialize message => "json deserialize: " ++ message
  | .lengthMismatch declared actual =>
    "payload length mismatch: header says " ++ toString declared ++ ", got " ++ toString actual

inductive IoErrorKind where
  | unexpectedEof
  | invalidData
  | other
deriving DecidableEq

structure IoError where
  kind : IoErrorKind
  message : String
deriving DecidableEq

/-- `serde_json` for the messages. -/
structure Serde (M : Type) where
  toVec : M → Except String (List Byte)
  fromSlice : List Byte → Except String M

section Codec
variable {M : Type} (serde : Serde M)

/-- The frame around a payload; `as u32` loses nothing below the limit. -/
def framePayload (buf : List Byte) (corrId : UInt32) (flags : Byte) (payload : List Byte) :
    Except ShellCodecError (List Byte) :=
  let frameLen := frameHeaderSize + payload.length
  if frameLen > maxFrameSize then .error (.invalidFrameLength frameLen)
  else .ok (buf ++ bigEndian 4 frameLen ++ bigEndian 4 corrId.toNat ++ [flags] ++ payload)

def encodeFrameInto (buf : List Byte) (corrId : UInt32) (flags : Byte) (msg : M) :
    Except ShellCodecError (List Byte) := do
  let payload ← (serde.toVec msg).mapError .serialize
  framePayload buf corrId flags payload

def decodeFrameBody (body : List Byte) : Except ShellCodecError (UInt32 × Byte × M) :=
  if body.length < frameHeaderSize then .error (.lengthMismatch frameHeaderSize body.length)
  else do
    let msg ← (serde.fromSlice (body.drop frameHeaderSize)).mapError .deserialize
    return (UInt32.ofNat (fromBigEndian (body.take 4)), body.getD 4 0, msg)

def validateFrameLen (frameLen : UInt32) : Except ShellCodecError Nat :=
  if frameHeaderSize ≤ frameLen.toNat ∧ frameLen.toNat ≤ maxFrameSize then .ok frameLen.toNat
  else .error (.invalidFrameLength frameLen.toNat)

end Codec

/-! ### A blocking source -/

/-- What a source still has: pieces that arrive as one, interruptions, and failures. -/
inductive ReadEvent where
  | interrupted
  | failed (error : IoError)
  | chunk (first : Byte) (rest : List Byte)

abbrev Reader : Type := List ReadEvent

def ReadEvent.bytes : ReadEvent → List Byte
  | .chunk first rest => first :: rest
  | _ => []

def Reader.bytes (reader : Reader) : List Byte := reader.flatMap ReadEvent.bytes

/-- Nothing fails but interruptions. -/
def Reader.Steady (reader : Reader) : Prop := ∀ error, ReadEvent.failed error ∉ reader

/-- How often a source can be read before it only ever says that it is at its end. -/
def Reader.steps (reader : Reader) : Nat := (reader.map fun event => event.bytes.length + 1).sum

inductive ReadResult where
  | ok (bytes : List Byte)
  | interrupted
  | failed (error : IoError)

/-- `read` into a buffer of this size. What does not fit is left; no bytes are the end. -/
def Reader.read (size : Nat) : Reader → ReadResult × Reader
  | [] => (.ok [], [])
  | .interrupted :: reader => (.interrupted, reader)
  | .failed error :: reader => (.failed error, reader)
  | .chunk first rest :: reader =>
    match (first :: rest).drop size with
    | [] => (.ok (first :: rest), reader)
    | first' :: rest' => (.ok ((first :: rest).take size), .chunk first' rest' :: reader)

/-- What `read` is offered when this much is missing: some of it, at least a byte. -/
def offered (ask : Nat → Nat) (missing : Nat) : Nat := max 1 (min (ask missing) missing)

/-- Reads until there are `size` bytes or the source is at its end; an interruption is tried
again. -/
def fill (ask : Nat → Nat) (size : Nat) : (rounds : Nat) → (got : List Byte) → Reader →
    Except IoError (List Byte) × Reader
  | 0, got, reader => (.ok got, reader)
  | rounds + 1, got, reader =>
    if got.length < size then
      match reader.read (offered ask (size - got.length)) with
      | (.ok [], reader) => (.ok got, reader)
      | (.ok bytes, reader) => fill ask size rounds (got ++ bytes) reader
      | (.interrupted, reader) => fill ask size rounds got reader
      | (.failed error, reader) => (.error error, reader)
    else (.ok got, reader)

/-! ### Reading frames -/

inductive ReadOutcome where
  | full
  | partialRead
  | eofAtBoundary

/-- `read_full`, which asks for all that is missing. -/
def readFull (size : Nat) (reader : Reader) : Except IoError (ReadOutcome × List Byte) × Reader :=
  match fill id size reader.steps [] reader with
  | (.error error, reader) => (.error error, reader)
  | (.ok got, reader) =>
    if got.length < size then (.ok (if got.length = 0 then .eofAtBoundary else .partialRead, got), reader)
    else (.ok (.full, got), reader)

section Blocking
variable {M : Type} (serde : Serde M) (ask : Nat → Nat)

def readFrameBlocking (reader : Reader) : Except IoError (Option (UInt32 × Byte × M)) × Reader :=
  match readFull 4 reader with
  | (.error error, reader) => (.error error, reader)
  | (.ok (.eofAtBoundary, _), reader) => (.ok none, reader)
  | (.ok (.partialRead, _), reader) => (.error ⟨.unexpectedEof, "partial frame length prefix"⟩, reader)
  | (.ok (.full, lenBuf), reader) =>
    match validateFrameLen (UInt32.ofNat (fromBigEndian lenBuf)) with
    | .error error => (.error ⟨.invalidData, error.toText⟩, reader)
    | .ok frameLen =>
      -- `take(frame_len).read_to_end(&mut body)`
      match fill ask frameLen reader.steps [] reader with
      | (.error error, reader) => (.error error, reader)
      | (.ok body, reader) =>
        if body.length ≠ frameLen then (.error ⟨.unexpectedEof, "partial frame body"⟩, reader)
        else
          match decodeFrameBody serde body with
          | .error error => (.error ⟨.invalidData, error.toText⟩, reader)
          | .ok parsed => (.ok (some parsed), reader)

/-- What as many calls return, one after the other. -/
def readFrames : (calls : Nat) → Reader → List (Except IoError (Option (UInt32 × Byte × M)))
  | 0, _ => []
  | calls + 1, reader =>
    let (result, reader) := readFrameBlocking serde ask reader
    result :: readFrames calls reader

/-- The frames of a list of messages, one after the other. -/
def encodeFrames (frames : List (UInt32 × Byte × M)) : Except ShellCodecError (List Byte) :=
  frames.foldlM (fun buf frame => encodeFrameInto serde buf frame.1 frame.2.1 frame.2.2) []

end Blocking

end Iii.Shell
