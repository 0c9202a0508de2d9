import Mathlib.Data.List.DropRight
import Mathlib.Data.Fintype.Pi

/-! What a client puts on the wire, and what it means.

A frame is a header and a masked payload (RFC 6455, section 5.2). `Frame.wire` writes one,
`deliver` reads a sequence of them: it checks each frame, joins the fragments of a data
message, and says what a reader with a limit hands out. It knows nothing of buffers, of
reads or of where a message is cut. -/
namespace Iii.Worker

abbrev Byte := UInt8

/-- Bytes kept from each end of a message over the limit. -/
@[irreducible] def edgeBytes : Nat := 64 * 1024

/-- Largest control frame payload. -/
def maxControlPayload : Nat := 125

/-- `u64::MAX`, where `saturating_add` stops. -/
def maxU64 : Nat := 2 ^ 64 - 1

inductive Data where
  | continue | text | binary
  | reserved (code : Fin 5)
deriving DecidableEq, Repr

inductive Control where
  | close | ping | pong
  | reserved (code : Fin 5)
deriving DecidableEq, Repr

inductive OpCode where
  | data (data : Data)
  | control (control : Control)
deriving DecidableEq, Repr

/-- The four bits of the opcode. The reserved ones are 3 to 7 and 11 to 15. -/
def OpCode.code : OpCode → Nat
  | .data .continue => 0
  | .data .text => 1
  | .data .binary => 2
  | .data (.reserved code) => 3 + code
  | .control .close => 8
  | .control .ping => 9
  | .control .pong => 10
  | .control (.reserved code) => 11 + code

def OpCode.isReserved : OpCode → Bool
  | .data (.reserved _) => true
  | .control (.reserved _) => true
  | _ => false

abbrev Mask := Fin 4 → Byte

structure FrameHeader where
  isFinal : Bool
  rsv1 : Bool
  rsv2 : Bool
  rsv3 : Bool
  opcode : OpCode
  mask : Option Mask
deriving DecidableEq

/-! ### On the wire -/

/-- `n` in `width` bytes, the most significant first. -/
def bigEndian : Nat → Nat → List Byte
  | 0, _ => []
  | width + 1, n => bigEndian width (n / 256) ++ [UInt8.ofNat n]

/-- The seven bits of the length, and the bytes that extend them. -/
def lengthBits (len : Nat) : Nat × List Byte :=
  if len ≤ 125 then (len, [])
  else if len < 2 ^ 16 then (126, bigEndian 2 len)
  else (127, bigEndian 8 len)

namespace FrameHeader

def first (h : FrameHeader) : Byte :=
  UInt8.ofNat (128 * h.isFinal.toNat + 64 * h.rsv1.toNat + 32 * h.rsv2.toNat + 16 * h.rsv3.toNat
    + h.opcode.code)

def maskBytes (h : FrameHeader) : List Byte :=
  match h.mask with
  | none => []
  | some mask => List.ofFn mask

def wire (h : FrameHeader) (len : Nat) : List Byte :=
  h.first :: UInt8.ofNat (128 * h.mask.isSome.toNat + (lengthBits len).1) ::
    ((lengthBits len).2 ++ h.maskBytes)

end FrameHeader

/-- Byte `i` of a payload under its mask. Masking twice gives the byte back. -/
def maskAt (mask : Mask) (i : Nat) (byte : Byte) : Byte :=
  byte ^^^ mask (Fin.ofNat 4 i)

/-- `bytes`, the payload from `offset` on, under its mask. -/
def masked (mask : Mask) (offset : Nat) (bytes : List Byte) : List Byte :=
  bytes.mapIdx fun i byte => maskAt mask (offset + i) byte

/-- A frame as its sender means it. The length field has no room for more. -/
structure Frame where
  header : FrameHeader
  payload : List Byte
  fits : payload.length < 2 ^ 63

namespace Frame

def body (f : Frame) : List Byte :=
  match f.header.mask with
  | none => f.payload
  | some mask => masked mask 0 f.payload

def wire (f : Frame) : List Byte :=
  f.header.wire f.payload.length ++ f.body

end Frame

def wireOf (frames : List Frame) : List Byte :=
  frames.flatMap Frame.wire

/-! ### What it means -/

/-- `Utf8Bytes::try_from`. -/
def utf8 (bytes : List Byte) : Option String :=
  String.fromUTF8? bytes.toByteArray

structure CloseFrame where
  code : Nat
  reason : String
deriving DecidableEq, Repr

inductive Message where
  | text (text : String)
  | binary (data : List Byte)
  | ping (data : List Byte)
  | pong (data : List Byte)
  | close (frame : Option CloseFrame)
deriving DecidableEq, Repr

/-- What is kept of a data message over the limit. -/
structure Oversized where
  size : Nat
  head : List Byte
  tail : List Byte
deriving DecidableEq, Repr

inductive Inbound where
  | message (message : Message)
  | oversized (oversized : Oversized)
deriving DecidableEq, Repr

def Inbound.isClose : Inbound → Bool
  | .message (.close _) => true
  | _ => false

/-- A data message from its first frame on: whether it is text, and its payload so far. -/
structure Open where
  text : Bool
  payload : List Byte
deriving DecidableEq, Repr

/-- The size the reader counts to. -/
def sizeOf (payload : List Byte) : Nat := min payload.length maxU64

/-- The last `min edgeBytes (size - edgeBytes)` bytes. -/
def lastEdge (payload : List Byte) : List Byte :=
  payload.rtake (min edgeBytes (payload.length - edgeBytes))

/-- What becomes of a whole data message. Only the text of a message that is kept is read. -/
def Open.finish (limit : Nat) (m : Open) : Option Inbound :=
  if limit < sizeOf m.payload then
    some (.oversized
      { size := sizeOf m.payload, head := m.payload.take edgeBytes, tail := lastEdge m.payload })
  else if m.text then (utf8 m.payload).map fun text => .message (.text text)
  else some (.message (.binary m.payload))

/-- A close payload is empty, or a code and the text of a reason. -/
def closePayload : List Byte → Option (Option CloseFrame)
  | [] => some none
  | [_] => none
  | hi :: lo :: reason =>
    (utf8 reason).map fun reason => some { code := 256 * hi.toNat + lo.toNat, reason }

def controlMessage (f : Frame) : Control → Option Message
  | .ping => some (.ping f.payload)
  | .pong => some (.pong f.payload)
  | .close => (closePayload f.payload).map .close
  | .reserved _ => none

/-- The message a data frame belongs to, with the frame's payload at its end. -/
def joined (f : Frame) : Data → Option Open → Option Open
  | .continue, some m => some { m with payload := m.payload ++ f.payload }
  | .text, none => some { text := true, payload := f.payload }
  | .binary, none => some { text := false, payload := f.payload }
  | _, _ => none

/-- One frame inside or outside a message: what it completes and what it leaves open,
`none` if it breaks a rule. -/
def accept (limit : Nat) (m : Option Open) (f : Frame) : Option (Option Inbound × Option Open) :=
  if f.header.rsv1 || f.header.rsv2 || f.header.rsv3 || f.header.mask.isNone then none else
  match f.header.opcode with
  | .control c =>
    if !f.header.isFinal || maxControlPayload < f.payload.length then none
    else (controlMessage f c).map fun message => (some (.message message), m)
  | .data d =>
    (joined f d m).bind fun m =>
      if f.header.isFinal then (m.finish limit).map fun inbound => (some inbound, none)
      else some (none, some m)

/-- What a sequence of frames amounts to: what it completes, and whether it breaks a rule. -/
structure Delivery where
  events : List Inbound
  violated : Bool
deriving DecidableEq, Repr

def deliver (limit : Nat) : Option Open → List Frame → Delivery
  | _, [] => { events := [], violated := false }
  | m, f :: rest =>
    match accept limit m f with
    | none => { events := [], violated := true }
    | some (none, m) => deliver limit m rest
    | some (some inbound, m) =>
      { deliver limit m rest with events := inbound :: (deliver limit m rest).events }

/-- Nothing that is delivered after a violation counts. -/
def Delivery.closes (d : Delivery) : Bool := d.events.any Inbound.isClose

end Iii.Worker
